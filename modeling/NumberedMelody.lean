import NumberedMelody.Quantity
import NumberedMelody.Binary64
import NumberedMelody.Decimal.Shortest
import NumberedMelody.Decimal.Layout
import NumberedMelody.Decimal.Numeral
import NumberedMelody.Text.Blank
import NumberedMelody.Text.Line
import NumberedMelody.Text.Quoted
import NumberedMelody.Harmony.Spelling
import NumberedMelody.Harmony.Degree
import NumberedMelody.Harmony.RomanNumeral
import NumberedMelody.Harmony.ChordTemplate
import NumberedMelody.Rhythm.DurationMark
import NumberedMelody.Rhythm.Euclidean
import NumberedMelody.Random.Source
import NumberedMelody.Options
import NumberedMelody.Failure
import NumberedMelody.Event.Field
import NumberedMelody.Event.Document
import NumberedMelody.Expr.Grammar
import NumberedMelody.Grammar.Item
import NumberedMelody.Evaluation.Step
import NumberedMelody.Evaluation.Context
import NumberedMelody.Evaluation.ListArithmetic
import NumberedMelody.Evaluation.Realize
import NumberedMelody.Evaluation.KeptChord
import NumberedMelody.Melody
import NumberedMelody.Config.Json
import NumberedMelody.Config.JsonText
import NumberedMelody.Config.OptionsDocument
import NumberedMelody.Config.Toml
import NumberedMelody.Config.OptionsText
import NumberedMelody.CommandLine.Form
import NumberedMelody.CommandLine.Arguments
import NumberedMelody.CommandLine.Help
import NumberedMelody.CommandLine.Listing
import NumberedMelody.CommandLine.Session
import NumberedMelody.Main
import NumberedMelody.Proofs.Melody.Looping
import NumberedMelody.Proofs.Melody.Failing
import NumberedMelody.Proofs.Melody.History
import NumberedMelody.Proofs.Melody.Sounding
import NumberedMelody.Proofs.Random.Replay
import NumberedMelody.Proofs.Evaluation.ReplayedRepeat
import NumberedMelody.Proofs.Evaluation.EagerVariables
import NumberedMelody.Proofs.Evaluation.Brackets
import NumberedMelody.Proofs.Evaluation.Joining
import NumberedMelody.Proofs.Evaluation.BarLines
import NumberedMelody.Proofs.Melody.LazyVariables
import NumberedMelody.Proofs.Melody.Counters
import NumberedMelody.Proofs.Melody.Tapes
import NumberedMelody.Proofs.Melody.Causes
import NumberedMelody.Proofs.Evaluation.KeptChord
import NumberedMelody.Proofs.Evaluation.Sharing
import NumberedMelody.Proofs.Evaluation.Associativity
import NumberedMelody.Proofs.Grammar.Juxtaposition
import NumberedMelody.Proofs.Grammar.Written
import NumberedMelody.Proofs.Rhythm.Evenness
import NumberedMelody.Proofs.Evaluation.Arpeggios
import NumberedMelody.Proofs.Evaluation.CyclicZip
import NumberedMelody.Proofs.Evaluation.AddingZero
import NumberedMelody.Proofs.Evaluation.DealtLists
import NumberedMelody.Proofs.Harmony.Octaves
import NumberedMelody.Proofs.Harmony.Ascending
import NumberedMelody.Proofs.Evaluation.Inversions
import NumberedMelody.Proofs.Grammar.WellFormed
import NumberedMelody.Proofs.Melody.KeyNames
import NumberedMelody.Proofs.Melody.ScaleNames
import NumberedMelody.Proofs.Grammar.Recognition
import NumberedMelody.Proofs.Melody.Rereading
import NumberedMelody.Proofs.Evaluation.EscapedOctave
import NumberedMelody.Proofs.Evaluation.RepeatForms
import NumberedMelody.Proofs.Melody.Blanks
import NumberedMelody.Proofs.Evaluation.Chaining
import NumberedMelody.Proofs.Grammar.UnreadText
import NumberedMelody.Proofs.Grammar.SpelledNotes
import NumberedMelody.Proofs.Config.RoundTrip
import NumberedMelody.Proofs.Evaluation.Stretching
import NumberedMelody.Proofs.Evaluation.MappedDegrees
import NumberedMelody.Proofs.Evaluation.EuclidScopes
import NumberedMelody.Proofs.Grammar.RightOperands
import NumberedMelody.Proofs.Evaluation.RandomDegrees
