import NearDup.Proofs.Json.Numbers
import NearDup.Proofs.Json.Refusal
import NearDup.Proofs.Tree.Replace
import NearDup.Report.Store

/-!
# Stored reports

The stored text of a report is read back part by part: the summary, the groups and the pairs, with
each ratio as what its text names. Cut off anywhere it is too short, and with a ratio that is not
finite it is refused at the null that stands for the first one.

* `Report.ofJson_json` — the text of a report is read, ratios as what their texts name
* `Report.ofJson_json_refused` — a report with a ratio that is not finite
* `Report.load_saved` — what is loaded from a file with the text of a report
* `Report.load_cut` — what is loaded from a file with the beginning of it
-/

namespace NearDup

open Json

/-! ## The numbers in a report -/

def Summary.counts (s : Summary) : List Nat := [s.totalFiles, s.exactGroups, s.similarPairs]

def PairEntry.counts (p : PairEntry) : List Nat :=
  [p.commonLines, p.sharedLines, p.totalLines, p.sections]

def PairEntry.ratios (p : PairEntry) : List Binary64 := [p.similarity, p.overlap]

/-- All counts in a report, the sizes of files among them. -/
def Report.counts (r : Report) : List Nat :=
  r.summary.counts ++ (r.exact.map (·.size) ++ r.similar.flatMap (·.counts))

/-- All ratios in a report, the threshold among them. -/
def Report.ratios (r : Report) : List Binary64 :=
  r.summary.threshold :: r.similar.flatMap (·.ratios)

/-- Does a count fit 64 bits? -/
abbrev FitsWord (n : Nat) : Prop := n < 2 ^ 64

theorem le_largestNatural {n : Nat} (h : FitsWord n) : n ≤ largestNatural := Nat.le_pred_of_lt h

/-! ## What is read back -/

def Summary.reread (s : Summary) : Summary := { s with threshold := s.threshold.reread }

def PairEntry.reread (p : PairEntry) : PairEntry :=
  { p with similarity := p.similarity.reread, overlap := p.overlap.reread }

/-- The report with each ratio as what its text names. -/
def Report.reread (r : Report) : Report :=
  { r with summary := r.summary.reread, similar := r.similar.map (·.reread) }

/-- Where the texts of the ratios name the ratios, that is the report itself. -/
theorem Report.reread_eq {r : Report} (h : ∀ x ∈ r.ratios, x.reread = x) : r.reread = r := by
  obtain ⟨hthreshold, hpairs⟩ := List.forall_mem_cons.1 h
  have hmap : r.similar.map (·.reread) = r.similar.map id := by
    refine List.map_congr_left fun p hp => ?_
    have hratios : ∀ x ∈ p.ratios, x.reread = x :=
      fun x hx => hpairs x (List.mem_flatMap.2 ⟨p, hp, hx⟩)
    rw [PairEntry.reread, hratios p.similarity (by simp [PairEntry.ratios]),
      hratios p.overlap (by simp [PairEntry.ratios])]
    rfl
  rw [Report.reread, Summary.reread, hthreshold, hmap, List.map_id]

/-! ## The parts -/

/-- Before anything is read, the text is cut short. -/
theorem lost_nil {α : Type} {reader : Reader α} (h : reader [] = .error .cutShort) :
    Lost [] (reader []) := by
  rw [h]
  exact .failed fun _ => rfl

theorem Summary.reads {s : Summary} (hc : ∀ n ∈ s.counts, FitsWord n)
    (hx : s.threshold.isFinite = true) : Reads [] Summary.reader s.writer s.reread := by
  have hn : ∀ n ∈ s.counts, Reads [] Reader.natural (.nat n) n :=
    fun n hn => .natural (le_largestNatural (hc n hn))
  exact Reads.record (.make rfl rfl (hn _ (by simp [counts])) <|
    .make rfl rfl (hn _ (by simp [counts])) <| .make rfl rfl (hn _ (by simp [counts])) <|
    .make rfl rfl (.double hx) <| .nil _) rfl

theorem GroupEntry.reads {g : GroupEntry} (hc : FitsWord g.size) :
    Reads [] GroupEntry.reader g.writer g := by
  have hfiles : Reads [] (.array .text) (.array (g.files.map .text)) g.files :=
    Reads.array (Or.inl rfl) (lost_nil rfl) fun s _ => .text (Or.inl rfl) s
  exact Reads.record (.make rfl rfl (.text (Or.inl rfl) _) <| .make rfl rfl hfiles <|
    .make rfl rfl (.natural (le_largestNatural hc)) <| .nil _) rfl

theorem PairEntry.reads {p : PairEntry} (hc : ∀ n ∈ p.counts, FitsWord n)
    (hx : ∀ x ∈ p.ratios, x.isFinite = true) : Reads [] PairEntry.reader p.writer p.reread := by
  have hn : ∀ n ∈ p.counts, Reads [] Reader.natural (.nat n) n :=
    fun n hn => .natural (le_largestNatural (hc n hn))
  exact Reads.record (.make rfl rfl (.text (Or.inl rfl) _) <|
    .make rfl rfl (.text (Or.inl rfl) _) <| .make rfl rfl (.double (hx _ (by simp [ratios]))) <|
    .make rfl rfl (.double (hx _ (by simp [ratios]))) <|
    .make rfl rfl (hn _ (by simp [counts])) <| .make rfl rfl (hn _ (by simp [counts])) <|
    .make rfl rfl (hn _ (by simp [counts])) <| .make rfl rfl (hn _ (by simp [counts])) <|
    .nil _) rfl

/-! ## Parts with a ratio that is not finite -/

theorem Summary.refuses {s : Summary} (hc : ∀ n ∈ s.counts, FitsWord n)
    (hx : s.threshold.isFinite = false) : Refuses Summary.reader s.writer := by
  have hn : ∀ n ∈ s.counts, Reads [] Reader.natural (.nat n) n :=
    fun n hn => .natural (le_largestNatural (hc n hn))
  exact refuses_record (.make_later rfl rfl (hn _ (by simp [counts])) <|
    .make_later rfl rfl (hn _ (by simp [counts])) <|
    .make_later rfl rfl (hn _ (by simp [counts])) <| .make_here rfl rfl (refuses_double hx))

theorem PairEntry.refuses {p : PairEntry} (hx : ∃ x ∈ p.ratios, x.isFinite = false) :
    Refuses PairEntry.reader p.writer := by
  have htext : ∀ s, Reads [] Reader.text (.text s) s := .text (Or.inl rfl)
  cases hsim : p.similarity.isFinite with
  | false =>
    exact refuses_record (.make_later rfl rfl (htext _) <| .make_later rfl rfl (htext _) <|
      .make_here rfl rfl (refuses_double hsim))
  | true =>
    have hover : p.overlap.isFinite = false := by simpa [ratios, hsim] using hx
    exact refuses_record (.make_later rfl rfl (htext _) <| .make_later rfl rfl (htext _) <|
      .make_later rfl rfl (.double hsim) <| .make_here rfl rfl (refuses_double hover))

/-! ## The report -/

namespace Report

variable {r : Report} {t : Tree} {path q : String}

/-- The fields of a report, as they are written. -/
def keys (r : Report) : List (String × Writer) :=
  [("summary", r.summary.writer), ("exact_duplicates", .array (r.exact.map (·.writer))),
   ("similar_pairs", .array (r.similar.map (·.writer)))]

theorem toList_json (r : Report) : r.json.toList = Writer.object r.keys .pretty 0 := by
  rw [json, Writer.render, String.toList_ofList]
  rfl

theorem fits_summary (h : ∀ n ∈ r.counts, FitsWord n) : ∀ n ∈ r.summary.counts, FitsWord n :=
  (List.forall_mem_append.1 h).1

theorem reads_exact (h : ∀ n ∈ r.counts, FitsWord n) :
    Reads [] (.array GroupEntry.reader) (.array (r.exact.map (·.writer))) r.exact := by
  obtain ⟨hexact, -⟩ := List.forall_mem_append.1 (List.forall_mem_append.1 h).2
  exact Reads.array (Or.inl rfl) (lost_nil rfl) fun g hg =>
    GroupEntry.reads (hexact _ (List.mem_map_of_mem hg))

theorem fits_pair (h : ∀ n ∈ r.counts, FitsWord n) {p : PairEntry} (hp : p ∈ r.similar) :
    ∀ n ∈ p.counts, FitsWord n := fun n hn =>
  (List.forall_mem_append.1 (List.forall_mem_append.1 h).2).2 n (List.mem_flatMap.2 ⟨p, hp, hn⟩)

/-- The fields of a report with finite ratios are read one after the other. -/
theorem fills_keys (hc : ∀ n ∈ r.counts, FitsWord n) (hx : ∀ x ∈ r.ratios, x.isFinite = true) :
    Fills [] PartialReport.fields .empty r.keys
      ⟨some r.reread.summary, some r.reread.exact, some r.reread.similar⟩ := by
  obtain ⟨hthreshold, hpairs⟩ := List.forall_mem_cons.1 hx
  have hsimilar : Reads [] (.array PairEntry.reader) (.array (r.similar.map (·.writer)))
      (r.similar.map (·.reread)) :=
    Reads.array_map (Or.inl rfl) (lost_nil rfl) fun p hp =>
      PairEntry.reads (fits_pair hc hp) fun x hx => hpairs x (List.mem_flatMap.2 ⟨p, hp, hx⟩)
  exact .make rfl rfl (Summary.reads (fits_summary hc) hthreshold) <|
    .make rfl rfl (reads_exact hc) <| .make rfl rfl hsimilar <| .nil _

/-- The text of a report with finite ratios is read, as a report with what the texts of the ratios
name. -/
theorem ofJson_json (hc : ∀ n ∈ r.counts, FitsWord n) (hx : ∀ x ∈ r.ratios, x.isFinite = true) :
    ofJson r.json = .ok r.reread := by
  have hfinish : PartialReport.finish
      ⟨some r.reread.summary, some r.reread.exact, some r.reread.similar⟩ = some r.reread := rfl
  have hread : reader ([] ++ (r.json.toList ++ [])) = .ok (r.reread, []) := by
    rw [toList_json]
    exact record_object (fills_keys hc hx) hfinish Layout.isBlank_pretty blanks_nil []
  rw [List.nil_append, List.append_nil] at hread
  rw [ofJson, readWhole, hread]
  rfl

/-- With a ratio that is not finite it is refused. -/
theorem ofJson_json_refused (hc : ∀ n ∈ r.counts, FitsWord n)
    (hx : ∃ x ∈ r.ratios, x.isFinite = false) : ofJson r.json = .error .mismatch := by
  have hrefuse : Refuses reader (Writer.object r.keys) := by
    cases hthreshold : r.summary.threshold.isFinite with
    | false =>
      exact refuses_record (z := [])
        (.make_here rfl rfl (Summary.refuses (fits_summary hc) hthreshold))
    | true =>
      obtain ⟨x, hx, hfin⟩ := hx
      obtain ⟨p, hp, hxp⟩ : ∃ p ∈ r.similar, x ∈ p.ratios := by
        rcases List.mem_cons.1 hx with rfl | hx
        · rw [hthreshold] at hfin
          cases hfin
        · exact List.mem_flatMap.1 hx
      have hpairs : ∀ p ∈ r.similar, (∃ b, Reads [] PairEntry.reader p.writer b) ∨
          Refuses PairEntry.reader p.writer := by
        intro p hp
        by_cases hall : ∀ x ∈ p.ratios, x.isFinite = true
        · exact Or.inl ⟨_, PairEntry.reads (fits_pair hc hp) hall⟩
        · simp only [not_forall, Bool.not_eq_true] at hall
          obtain ⟨x, hx, hfin⟩ := hall
          exact Or.inr (PairEntry.refuses ⟨x, hx, hfin⟩)
      have hhalts := halts_of_mem hpairs hp (PairEntry.refuses ⟨x, hxp, hfin⟩)
      exact refuses_record (.make_later rfl rfl (Summary.reads (fits_summary hc) hthreshold) <|
        .make_later rfl rfl (reads_exact hc) <| .make_here rfl rfl (refuses_array hhalts))
  have hread := hrefuse.whole .pretty 0 [] [] Layout.isBlank_pretty blanks_nil apart_nil
  rw [List.nil_append, List.append_nil, ← toList_json] at hread
  rw [ofJson, readWhole, hread]
  rfl

/-- Of a report with finite ratios, no proper beginning is read. -/
theorem ofJson_cut (hc : ∀ n ∈ r.counts, FitsWord n) (hx : ∀ x ∈ r.ratios, x.isFinite = true)
    (hq : q.toList <+: r.json.toList) (hne : q ≠ r.json) : ofJson q = .error .cutShort := by
  obtain ⟨off, hoff⟩ := hq
  have hcut : Cut r.json.toList q.toList := by
    refine ⟨off, ?_, hoff.symm⟩
    rintro rfl
    rw [List.append_nil] at hoff
    exact hne (String.toList_inj.1 hoff)
  have hread : reader q.toList = .error .cutShort := by
    by_cases hnil : q.toList = []
    · rw [hnil]
      rfl
    · rw [toList_json] at hcut
      obtain ⟨d, hfail, hshort⟩ : Fails [] (reader ([] ++ (q.toList ++ []))) :=
        fails_record (Or.inl rfl) (fills_keys hc hx) Layout.isBlank_pretty blanks_nil hcut hnil
      rw [List.nil_append, List.append_nil, hshort rfl] at hfail
      exact hfail
  rw [ofJson, readWhole, hread]
  rfl

/-! ## Loading -/

theorem load_of_read {text : String} (h : t.read path = .ok (Text.Utf8.encode text)) :
    load t path = (ofJson text).mapError (.reportInvalid path) := by
  obtain ⟨loc, hfind⟩ := Tree.read_eq_ok_iff.1 h
  rw [load, Journal.readText_of_find hfind]

/-- **A report that is saved is loaded again**, if the texts of its ratios name them: its text is in
the file then, and is read back as that report. With a ratio that is not finite the text is
refused. -/
theorem load_saved (r : Report) (path : String) (hc : ∀ n ∈ r.counts, FitsWord n) :
    (∀ t t', (r.save path).perform t = (.ok (), t') →
      (t.withParents path).isLink path = false →
      (t.withParents path).isLink (Tree.temporary path) = false →
        t'.read path = .ok (Text.Utf8.encode r.json)) ∧
    ∀ t, t.read path = .ok (Text.Utf8.encode r.json) →
      ((∀ x ∈ r.ratios, x.isFinite = true ∧ Reader.double x.shortestText = .ok (x, [])) →
        load t path = .ok r) ∧
      ((∃ x ∈ r.ratios, x.isFinite = false) →
        load t path = .error (.reportInvalid path .mismatch)) := by
  refine ⟨fun t t' h hlink htemp => Tree.read_replace h hlink htemp, fun t hread => ⟨?_, ?_⟩⟩
  · intro hx
    have hsame : r.reread = r := by
      refine reread_eq fun x hmem => ?_
      rw [Binary64.reread, (hx x hmem).2]
    rw [load_of_read hread, ofJson_json hc fun x hmem => (hx x hmem).1, hsame]
    rfl
  · intro hx
    rw [load_of_read hread, ofJson_json_refused hc hx]
    rfl

/-- A report with quotes, a backslash and a control character in its strings, and the largest size.
-/
def awkward (ratio : Binary64) : Report :=
  { summary := ⟨3, 1, 1, .ofRatio 3 10⟩
    exact := [⟨"0123456789abcdef", ["a \"b\".md", "ü\x01\\.txt"], 18446744073709551615⟩]
    similar := [⟨"x\n.md", "😀.md", .ofNat 1, ratio, 7, 5, 9, 0⟩] }

/-- The tree with nothing but a report in it. -/
def savedAt (path : String) (r : Report) : Tree := ((r.save path).perform Tree.empty).2

theorem load_saved_awkward :
    load (savedAt "in/r.json" (awkward (.ofRatio 2 3))) "in/r.json" =
      .ok (awkward (.ofRatio 2 3)) ∧
    load (savedAt "in/r.json" (awkward .nan)) "in/r.json" =
      .error (.reportInvalid "in/r.json" .mismatch) := by
  have hlink : (Tree.empty.withParents "in/r.json").isLink "in/r.json" = false ∧
      (Tree.empty.withParents "in/r.json").isLink (Tree.temporary "in/r.json") = false := by
    decide +kernel
  constructor
  · obtain ⟨hsave, hload⟩ := load_saved (awkward (.ofRatio 2 3)) "in/r.json" (by decide +kernel)
    have hread := hsave .empty _ (Prod.ext (by decide +kernel) rfl) hlink.1 hlink.2
    exact (hload _ hread).1 (by decide +kernel)
  · obtain ⟨hsave, hload⟩ := load_saved (awkward .nan) "in/r.json" (by decide +kernel)
    have hread := hsave .empty _ (Prod.ext (by decide +kernel) rfl) hlink.1 hlink.2
    exact (hload _ hread).2 (by decide +kernel)

/-- **A report that is cut short is not loaded**: whatever proper beginning of its text a file
holds, that is what is wrong with it. -/
theorem load_cut (r : Report) (hc : ∀ n ∈ r.counts, FitsWord n)
    (hx : ∀ x ∈ r.ratios, x.isFinite = true) (hq : q.toList <+: r.json.toList) (hne : q ≠ r.json)
    (hread : t.read path = .ok (Text.Utf8.encode q)) :
    load t path = .error (.reportInvalid path .cutShort) := by
  rw [load_of_read hread, ofJson_cut hc hx hq hne]
  rfl

/-- The text of a report up to a place within the fraction of a number. -/
def cutWithinFraction : String :=
  String.ofList ((awkward (.ofRatio 2 3)).json.toList.take 440)

theorem load_cut_withinFraction :
    load ⟨[(["r.json"], .file (Text.Utf8.encode cutWithinFraction))]⟩ "r.json" =
      .error (.reportInvalid "r.json" .cutShort) := by
  have hfront : cutWithinFraction.toList <+: (awkward (.ofRatio 2 3)).json.toList := by
    rw [cutWithinFraction, String.toList_ofList]
    exact List.take_prefix _ _
  have hshorter : cutWithinFraction ≠ (awkward (.ofRatio 2 3)).json := by
    have hlen : 440 < (Writer.object (awkward (.ofRatio 2 3)).keys .pretty 0).length := by
      decide +kernel
    intro h
    have heq := congrArg (·.toList.length) h
    simp only [cutWithinFraction, String.toList_ofList, List.length_take, toList_json] at heq
    omega
  exact load_cut (awkward (.ofRatio 2 3)) (by decide +kernel) (by decide +kernel) hfront hshorter
    rfl

end Report

end NearDup
