import Cubing.Algorithm
import Cubing.Notation.Grammar
import Cubing.Notation.Reading
import Cubing.Notation.Spelling
import Cubing.Proofs.AnySpelling
import Cubing.Proofs.CleaningTwice
import Cubing.Proofs.Concatenation
import Cubing.Proofs.CountedPairs
import Cubing.Proofs.ExpansionBound
import Cubing.Proofs.Inverses
import Cubing.Proofs.LegalCubes
import Cubing.Proofs.PrimedGroups
import Cubing.Proofs.ReadingBack
import Cubing.Proofs.ReadingByTrial
import Cubing.Proofs.ReadingEnds
import Cubing.Proofs.RotatedTurns
import Cubing.Proofs.RotationlessEffect
import Cubing.Proofs.Rounds
import Cubing.Proofs.Sequencing
import Cubing.Proofs.Sizes
import Cubing.Proofs.ToldApart
import Cubing.Proofs.Traversing
import Cubing.Proofs.TruthfulErrors
import Cubing.Proofs.TurnCounts
import Cubing.Proofs.UndoneEffect
import Cubing.Proofs.ValidTexts
import Cubing.Proofs.ViablePrefixes
import Cubing.Proofs.Views
import Cubing.Puzzle.Cube
import Cubing.Tree.Cycling
import Cubing.Tree.Expansion
import Cubing.Turn.Spelling
