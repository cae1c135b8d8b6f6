import SoundChange.Main
import SoundChange.Proofs.Cascade.Composition
import SoundChange.Proofs.Cascade.Derivation
import SoundChange.Proofs.Cascade.Replacement
import SoundChange.Proofs.Cascade.Tables
import SoundChange.Proofs.Cascade.Validity
import SoundChange.Proofs.Rule.Mirror
import SoundChange.Proofs.Rule.Scan
import SoundChange.Proofs.Rule.Replacement
import SoundChange.Proofs.RuleLine.Reading
import SoundChange.Proofs.Cascade.Comments
import SoundChange.Proofs.Cascade.History
import SoundChange.Proofs.Rule.RightContext
import SoundChange.Proofs.Rule.WordEdge
import SoundChange.Proofs.Rule.InlineCategory
import SoundChange.Proofs.Cascade.Batch
import SoundChange.Proofs.Json.Reading
import SoundChange.Proofs.CategoryTable
import SoundChange.Proofs.CategoryTable.Definitions
import SoundChange.Proofs.CategoryTable.Document
import SoundChange.Proofs.File.Tree
import SoundChange.Proofs.File.Writing
import SoundChange.Proofs.Settings.Document
import SoundChange.Proofs.Settings.Saving
import SoundChange.Proofs.Json.Values
import SoundChange.Proofs.CommandLine.Run
import SoundChange.Proofs.CommandLine.Output
import SoundChange.Proofs.Text.Lines
import SoundChange.Proofs.CommandLine.Input
import SoundChange.Proofs.CommandLine.Files
import SoundChange.Proofs.Condition.Context
import SoundChange.Proofs.Condition.WholeWord
import SoundChange.Proofs.Rule.Rounds
import SoundChange.Proofs.Rule.Simultaneous
import SoundChange.Proofs.Verdict
import SoundChange.Proofs.Cascade.Entries
import SoundChange.Proofs.RuleLine.Offences
import SoundChange.Proofs.Rule.Affix
import SoundChange.Proofs.Cascade.AffixRoundTrip
import SoundChange.Proofs.Rule.ElseChange
import SoundChange.Proofs.Rule.Environment
import SoundChange.Proofs.Rule.Correspondence
import SoundChange.Proofs.Condition.Faults
import SoundChange.Proofs.Condition.Comparisons
import SoundChange.Proofs.Rule.Comparisons
import SoundChange.Proofs.Rule.Faults
import SoundChange.Proofs.Rule.ShapeFaults
import SoundChange.Proofs.Rule.Readable
import SoundChange.Proofs.CategoryTable.Edits
import SoundChange.Proofs.CategoryTable.Printed
import SoundChange.Proofs.RuleText.LineEnds
import SoundChange.Proofs.Rule.Ranges
