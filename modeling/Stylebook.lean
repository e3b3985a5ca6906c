import Stylebook.Arena
import Stylebook.Cascade
import Stylebook.Main
import Stylebook.Resolution
import Stylebook.Proofs.ElementForest
import Stylebook.Proofs.ElementFields
import Stylebook.Proofs.CharacterTables
import Stylebook.Proofs.OrderedList
import Stylebook.Proofs.Stamps
import Stylebook.Proofs.Agreement
import Stylebook.Proofs.CascadeOrder
import Stylebook.Proofs.ImportOrder
import Stylebook.Proofs.ImportCycles
import Stylebook.TreeCall
import Stylebook.Proofs.ForestShape
import Stylebook.Proofs.WireTree
import Stylebook.Proofs.IndexPaths
import Stylebook.Proofs.WireBytes
import Stylebook.Proofs.WireForm
import Stylebook.Proofs.ArenaShape
import Stylebook.Proofs.ArenaTree
import Stylebook.Proofs.SelectorPath
import Stylebook.Proofs.LexemeRow
import Stylebook.Proofs.SelectorGrammar
import Stylebook.Proofs.StylesheetGrammar
import Stylebook.Proofs.LexerExtension
import Stylebook.Proofs.Concatenation
import Stylebook.Proofs.Inheritance
import Stylebook.Proofs.PackedWeight
import Stylebook.Proofs.StampedRows
import Stylebook.RuleCall
import Stylebook.Proofs.RuleCalls
import Stylebook.Proofs.CanonicalForm
import Stylebook.Proofs.CanonicalWeight
import Stylebook.Proofs.LexerTiling
import Stylebook.Proofs.Recount
import Stylebook.Proofs.PathCourse
import Stylebook.Proofs.Placement
import Stylebook.Proofs.RawTokens
import Stylebook.Proofs.PreludeSlice
import Stylebook.Proofs.StatementPlaces
import Stylebook.Proofs.ClassIdentifiers
import Stylebook.Proofs.Progression
import Stylebook.Proofs.TokenText
import Stylebook.Proofs.NumberForm
import Stylebook.Proofs.SelectorText
import Stylebook.Proofs.TermText
import Stylebook.Proofs.CanonicalText
import Stylebook.Proofs.ExactPositions
import Stylebook.Proofs.AbsentNodes
import Stylebook.Proofs.ShelfTexts
import Stylebook.Proofs.TypedValues
