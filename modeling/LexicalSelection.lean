import LexicalSelection.Alphabet.Basic
import LexicalSelection.Alphabet.Binary
import LexicalSelection.Automaton.Basic
import LexicalSelection.Automaton.Binary
import LexicalSelection.Automaton.Graph
import LexicalSelection.Automaton.Subset
import LexicalSelection.Codec.Decoder
import LexicalSelection.Codec.Integer
import LexicalSelection.Codec.Real
import LexicalSelection.Codec.Text
import LexicalSelection.Codec.Word
import LexicalSelection.Embedding.Generator
import LexicalSelection.Embedding.RuleFragment
import LexicalSelection.Embedding.SkipGram
import LexicalSelection.Embedding.Vocabulary
import LexicalSelection.Input
import LexicalSelection.Job.Arguments
import LexicalSelection.Job.Basic
import LexicalSelection.Job.FileStore
import LexicalSelection.Job.Files
import LexicalSelection.LexicalUnit
import LexicalSelection.LexicalUnit.Stream
import LexicalSelection.Location
import LexicalSelection.Main
import LexicalSelection.Model.Basic
import LexicalSelection.Model.Binary
import LexicalSelection.Model.Error
import LexicalSelection.Model.Rules
import LexicalSelection.Model.WeightTable
import LexicalSelection.Number.Binary64
import LexicalSelection.Number.Decimal
import LexicalSelection.Number.Power
import LexicalSelection.Order.Ascending
import LexicalSelection.Pattern.Binary
import LexicalSelection.Pattern.Matcher
import LexicalSelection.Pattern.Syntax
import LexicalSelection.Proofs.Alphabet.Interning
import LexicalSelection.Proofs.Alphabet.Numbering
import LexicalSelection.Proofs.Alphabet.Stored
import LexicalSelection.Proofs.Automaton.Active
import LexicalSelection.Proofs.Automaton.Building
import LexicalSelection.Proofs.Automaton.Canonical
import LexicalSelection.Proofs.Automaton.Deterministic
import LexicalSelection.Proofs.Automaton.Language
import LexicalSelection.Proofs.Automaton.Layout
import LexicalSelection.Proofs.Automaton.Minimal
import LexicalSelection.Proofs.Automaton.Minimizing
import LexicalSelection.Proofs.Automaton.Rereading
import LexicalSelection.Proofs.Automaton.Running
import LexicalSelection.Proofs.Automaton.Stored
import LexicalSelection.Proofs.Automaton.SubsetConstruction
import LexicalSelection.Proofs.Automaton.Worklist
import LexicalSelection.Proofs.Codec.Decoding
import LexicalSelection.Proofs.Codec.Exact
import LexicalSelection.Proofs.Codec.Integer
import LexicalSelection.Proofs.Codec.Numbers
import LexicalSelection.Proofs.Codec.Numeral
import LexicalSelection.Proofs.Codec.Real
import LexicalSelection.Proofs.Embedding.LiteralPattern
import LexicalSelection.Proofs.Embedding.Numbering
import LexicalSelection.Proofs.Embedding.RuleFragment
import LexicalSelection.Proofs.Embedding.Sentences
import LexicalSelection.Proofs.Embedding.Vocabulary
import LexicalSelection.Proofs.LexicalUnit.Local
import LexicalSelection.Proofs.LexicalUnit.Places
import LexicalSelection.Proofs.LexicalUnit.Rereading
import LexicalSelection.Proofs.LexicalUnit.Spelling
import LexicalSelection.Proofs.Model.Accepted
import LexicalSelection.Proofs.Model.Extension
import LexicalSelection.Proofs.Model.Features
import LexicalSelection.Proofs.Model.Legible
import LexicalSelection.Proofs.Model.Loaded
import LexicalSelection.Proofs.Model.Naming
import LexicalSelection.Proofs.Model.Positions
import LexicalSelection.Proofs.Model.RuleText
import LexicalSelection.Proofs.Model.Rules
import LexicalSelection.Proofs.Model.Scoring
import LexicalSelection.Proofs.Model.Stored
import LexicalSelection.Proofs.Model.WeightTable
import LexicalSelection.Proofs.Model.Windowed
import LexicalSelection.Proofs.Number.Rounding
import LexicalSelection.Proofs.Order.Ascending
import LexicalSelection.Proofs.Pattern.Chain
import LexicalSelection.Proofs.Pattern.Description
import LexicalSelection.Proofs.Pattern.Draft
import LexicalSelection.Proofs.Pattern.Features
import LexicalSelection.Proofs.Pattern.Stored
import LexicalSelection.Proofs.Pattern.WellFormed
import LexicalSelection.Proofs.Rule.Line
import LexicalSelection.Proofs.Rule.Spans
import LexicalSelection.Proofs.Rule.Token
import LexicalSelection.Proofs.Selector.Apart
import LexicalSelection.Proofs.Selector.Beam
import LexicalSelection.Proofs.Selector.Best
import LexicalSelection.Proofs.Selector.Calls
import LexicalSelection.Proofs.Selector.Copying
import LexicalSelection.Proofs.Selector.Course
import LexicalSelection.Proofs.Selector.Foremost
import LexicalSelection.Proofs.Selector.Gain
import LexicalSelection.Proofs.Selector.Greedy
import LexicalSelection.Proofs.Selector.Indices
import LexicalSelection.Proofs.Selector.Layers
import LexicalSelection.Proofs.Selector.Lockstep
import LexicalSelection.Proofs.Selector.Online
import LexicalSelection.Proofs.Selector.Optimum
import LexicalSelection.Proofs.Selector.Run
import LexicalSelection.Proofs.Selector.Score
import LexicalSelection.Proofs.Selector.Splitting
import LexicalSelection.Proofs.Selector.UniqueBest
import LexicalSelection.Proofs.Text.BrokenLines
import LexicalSelection.Proofs.Text.Lines
import LexicalSelection.Proofs.Text.Session
import LexicalSelection.Proofs.Text.Utf8
import LexicalSelection.Proofs.Training.Agreement
import LexicalSelection.Proofs.Training.Alignment
import LexicalSelection.Proofs.Training.AnyOrder
import LexicalSelection.Proofs.Training.Averaging
import LexicalSelection.Proofs.Training.Eager
import LexicalSelection.Proofs.Training.Faultless
import LexicalSelection.Proofs.Training.Loading
import LexicalSelection.Proofs.Training.MistakeBound
import LexicalSelection.Proofs.Training.Reproduction
import LexicalSelection.Proofs.Training.Step
import LexicalSelection.Reading
import LexicalSelection.Rule.Line
import LexicalSelection.Rule.Token
import LexicalSelection.Selector.Stream
import LexicalSelection.Selector.Window
import LexicalSelection.Text.Basic
import LexicalSelection.Text.Lines
import LexicalSelection.Text.Quoted
import LexicalSelection.Text.SpelledOut
import LexicalSelection.Text.Utf8
import LexicalSelection.Text.White
import LexicalSelection.Training.Corpus
import LexicalSelection.Training.Perceptron
