import ModelStubs.Main
import ModelStubs.Proofs.Listings
import ModelStubs.Proofs.Sinks
import ModelStubs.Proofs.Pieces
import ModelStubs.Proofs.Keys
import ModelStubs.Proofs.Memory
import ModelStubs.Proofs.Routes
import ModelStubs.Proofs.Trees
import ModelStubs.Proofs.DiskWrites
import ModelStubs.Proofs.Places
import ModelStubs.Proofs.Confinement
import ModelStubs.Proofs.Bystanders
import ModelStubs.Proofs.Walks
import ModelStubs.Proofs.StubFiles
import ModelStubs.Proofs.LastTexts
import ModelStubs.Proofs.GenerateRun
import ModelStubs.Proofs.Checks
import ModelStubs.Proofs.Outcomes
import ModelStubs.Proofs.Json.Scalars
import ModelStubs.Proofs.Json.Spellings
import ModelStubs.Proofs.Json.Passing
import ModelStubs.Proofs.Json.Decoding
import ModelStubs.Proofs.Json.RoundTrip
import ModelStubs.Proofs.Json.Tokens
import ModelStubs.Proofs.Json.SyntaxTrees
import ModelStubs.Proofs.Json.TreeReading
import ModelStubs.Proofs.Json.Meanings
import ModelStubs.Proofs.Json.TreeDecoding
import ModelStubs.Proofs.Json.ShapeReading
import ModelStubs.Proofs.Json.ReadTexts
import ModelStubs.Proofs.Json.PlainTrees
import ModelStubs.Proofs.Json.Layouts
import ModelStubs.Proofs.Json.SameMeaning
import ModelStubs.Proofs.Json.KnownMembers
import ModelStubs.Proofs.Json.TaggedBodies
import ModelStubs.Proofs.ModelTexts
import ModelStubs.Proofs.ModelReadings
import ModelStubs.Proofs.RunOutcome
import ModelStubs.Proofs.SpoiledFile
import ModelStubs.Proofs.Changes
import ModelStubs.Proofs.StubWrites
import ModelStubs.Proofs.Agreement
import ModelStubs.Proofs.Ancestors
import ModelStubs.Proofs.DeadEnds
import ModelStubs.Proofs.Obstacles
import ModelStubs.Proofs.SecondRuns
import ModelStubs.Proofs.FoundFiles
import ModelStubs.Proofs.RunTwice
import ModelStubs.Proofs.Json.Literals
import ModelStubs.Proofs.Json.Notations
import ModelStubs.Proofs.ModelNotations
import ModelStubs.Proofs.StubTexts
import ModelStubs.Proofs.Comments
import ModelStubs.Proofs.Registries
import ModelStubs.Proofs.Refusals
import ModelStubs.Proofs.StubPaths
import ModelStubs.Proofs.Json.Repeats
import ModelStubs.Proofs.RepeatedNames
import ModelStubs.Proofs.Json.NumberLiterals
import ModelStubs.Proofs.Json.Holes
import ModelStubs.Proofs.ModelBounds
import ModelStubs.Proofs.LinkedWalks
import ModelStubs.Proofs.PathBytes
import ModelStubs.Proofs.Searches
import ModelStubs.Proofs.Json.IndentedTexts
import ModelStubs.Proofs.LinkedWrites
import ModelStubs.Proofs.NewProjects
import ModelStubs.Proofs.ReplacedFile
import ModelStubs.Proofs.Overrides
import ModelStubs.Proofs.Ledgers
import ModelStubs.Proofs.SameDocuments
import ModelStubs.Proofs.ShownFiles
import ModelStubs.Proofs.PathSpellings
import ModelStubs.Proofs.MemoryHistories
import ModelStubs.Proofs.BufferDepths
import ModelStubs.Proofs.Padding
