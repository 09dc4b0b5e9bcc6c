import NearDup.Main
import NearDup.Proofs.Tree.Paths
import NearDup.Proofs.Align.Division
import NearDup.Proofs.Merge.Rounds
import NearDup.Proofs.Merge.Step
import NearDup.Proofs.Journal
import NearDup.Proofs.Merge.Conservation
import NearDup.Proofs.Path
import NearDup.Proofs.Inbox
import NearDup.Proofs.Analysis
import NearDup.Proofs.Merge.Copies
import NearDup.Proofs.Merge.Survival
import NearDup.Proofs.Merge.Since
import NearDup.Proofs.Merge.Rerun
import NearDup.Proofs.Merge.Trial
import NearDup.Proofs.Merge.Silent
import NearDup.Proofs.Merge.Changes
import NearDup.Proofs.Merge.UsedOnce
import NearDup.Proofs.ExactGroups
import NearDup.Proofs.Merge.Blocked
import NearDup.Proofs.Merge.Logged
import NearDup.Proofs.Ranking
import NearDup.Proofs.Inbox.Identifiers
import NearDup.Proofs.Report.Stored
import NearDup.Proofs.Similarity
import NearDup.Proofs.Console.Trial
import NearDup.Proofs.Tree.Atomic
import NearDup.Proofs.Console.Repeated
import NearDup.Proofs.Threshold
import NearDup.Proofs.Grouping
import NearDup.Proofs.Match
import NearDup.Proofs.Merge.LeastOverlap
import NearDup.Proofs.Align.Places
