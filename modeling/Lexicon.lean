import Lexicon.Main
import Lexicon.Directory
import Lexicon.Proofs.Dictionary.Backends
import Lexicon.Proofs.Ternary.Near
import Lexicon.Proofs.Ternary.Matching
import Lexicon.Proofs.MedianOrder.Height
import Lexicon.Proofs.MedianOrder.Bounded
import Lexicon.Proofs.Ternary.Growth
import Lexicon.Proofs.Ternary.Balance
import Lexicon.Proofs.Sort.Bubble
import Lexicon.Proofs.Sort.Selection
import Lexicon.Proofs.Sort.Insertion
import Lexicon.Proofs.Sort.InPlace.Bubble
import Lexicon.Proofs.Sort.InPlace.Selection
import Lexicon.Proofs.Sort.InPlace.Insertion
import Lexicon.Proofs.Sort.InPlace.Quick
import Lexicon.Proofs.Sort.InPlace.Partition
import Lexicon.Proofs.Sort.InPlace.Rounds
import Lexicon.Proofs.Sort.InPlace.Nesting
import Lexicon.Proofs.Sort.Safety
import Lexicon.Proofs.Reading.Maximal
import Lexicon.Proofs.Reading.Pieces
import Lexicon.Proofs.WordList.Acceptance
import Lexicon.Proofs.Order.Agreement
import Lexicon.Proofs.WordList.Closing
import Lexicon.Proofs.WordList.Cursor
import Lexicon.Proofs.Ternary.Spelling
import Lexicon.Proofs.Bloom.Storage
import Lexicon.Proofs.Ternary.Reordered
import Lexicon.Proofs.Ternary.Arena.WellFormed
import Lexicon.Proofs.Options.SinglePass
import Lexicon.Proofs.Tool.LookUps
import Lexicon.Proofs.Tool.Listings
import Lexicon.Proofs.Reading.Texts
import Lexicon.Proofs.Sort.Stable
import Lexicon.Proofs.WordList.BoundedSearch
import Lexicon.Proofs.Ternary.Edits
import Lexicon.Proofs.WordList.Floor
import Lexicon.Proofs.WordList.Inversion
import Lexicon.Proofs.Reading.Numbered
import Lexicon.Proofs.Reading.Skipping
import Lexicon.Proofs.Ternary.Arena.Extension
import Lexicon.Proofs.Ternary.StandsFor
import Lexicon.Proofs.Ternary.Outline
import Lexicon.Proofs.Bloom.Positions
