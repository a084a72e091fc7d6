import LinePattern.Pattern.Basic
import LinePattern.Pattern.Error
import LinePattern.Pattern.Item
import LinePattern.Pattern.Compile
import LinePattern.Pattern.Search
import LinePattern.Pattern.WellFormed
import LinePattern.Pattern.Printer
import LinePattern.Pattern.Grammar
import LinePattern.Pattern.Language
import LinePattern.Pattern.Attempts
import LinePattern.Text.Line
import LinePattern.Text.Numeral
import LinePattern.Text.Utf8
import LinePattern.Text.Sequence
import LinePattern.Request
import LinePattern.Answer
import LinePattern.Stages
import LinePattern.Main
import LinePattern.Proofs.Items
import LinePattern.Proofs.Cut
import LinePattern.Proofs.Grammar
import LinePattern.Proofs.WellFormed
import LinePattern.Proofs.RoundTrip
import LinePattern.Proofs.Occurrence
import LinePattern.Proofs.Attempts
import LinePattern.Proofs.LiteralText
import LinePattern.Proofs.Scalars
import LinePattern.Proofs.Sequences
import LinePattern.Proofs.Decoding
import LinePattern.Proofs.Outcome
import LinePattern.Proofs.Policy
import LinePattern.Proofs.Sweep
import LinePattern.Proofs.Extension
import LinePattern.Proofs.Anchoring
import LinePattern.Proofs.Expansion
import LinePattern.Proofs.Mirror
import LinePattern.Proofs.ShortestMatch
import LinePattern.Proofs.Widening
import LinePattern.Proofs.Renaming
import LinePattern.Proofs.Simplification
import LinePattern.Proofs.Terminators
import LinePattern.Proofs.Arguments
import LinePattern.Proofs.Numerals
import LinePattern.Proofs.Lookback
import LinePattern.Proofs.Options
