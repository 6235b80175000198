import PathGlob.FileSystem
import PathGlob.Namespace
import PathGlob.Search
import PathGlob.Proofs.Escapes
import PathGlob.Proofs.Parts
import PathGlob.Proofs.Walk.Outcome
import PathGlob.Proofs.Namespace.Paths
import PathGlob.Proofs.Namespace.Tree
import PathGlob.Proofs.Walk.Termination
import PathGlob.Proofs.Fronts
import PathGlob.Proofs.Names
import PathGlob.Proofs.Traversal.Alignment
import PathGlob.Proofs.Traversal.Composition
import PathGlob.Proofs.Traversal.RepeatedStars
import PathGlob.Proofs.Walk.RelativePaths
import PathGlob.Proofs.Braces.Expansion
import PathGlob.Proofs.Traversal.Endings
import PathGlob.Proofs.Traversal.Sessions
import PathGlob.Proofs.Segment.Expressions
import PathGlob.Proofs.Namespace.CanonicalPaths
import PathGlob.Proofs.Braces.Alternatives
import PathGlob.Proofs.Walk.Simulation
import PathGlob.Proofs.Traversal.EscapeModes
import PathGlob.Proofs.Traversal.ExistenceChecks
import PathGlob.Proofs.Walk.Enumeration
import PathGlob.Proofs.Traversal.Laziness
import PathGlob.Proofs.Traversal.UniqueMatches
import PathGlob.Proofs.Namespace.Building
import PathGlob.Proofs.Traversal.BuildingOrder
import PathGlob.Proofs.Traversal.CallDiscipline
import PathGlob.Proofs.Cuts
import PathGlob.Proofs.Walk.Losses
import PathGlob.Proofs.Segment.RedundantEscapes
import PathGlob.Proofs.Traversal.RedundantEscapes
import PathGlob.Proofs.Traversal.HiddenNames
import PathGlob.Proofs.Traversal.LoggedRuns
import PathGlob.Proofs.Traversal.LinkLoops
import PathGlob.Proofs.Traversal.SharedTrees
import PathGlob.Proofs.Namespace.Additions
import PathGlob.Proofs.Namespace.Tables
import PathGlob.Proofs.Namespace.Consistency
import PathGlob.Proofs.Namespace.PartMatches
import PathGlob.Proofs.Traversal.Subtrees
import PathGlob.Proofs.Traversal.RelativePatterns
import PathGlob.Proofs.Traversal.TrailingSeparators
import PathGlob.Proofs.Traversal.LostDirectories
import PathGlob.Proofs.Namespace.Effects
import PathGlob.Proofs.EscapedNames
import PathGlob.Proofs.Segment.MalformedClasses
import PathGlob.Proofs.Segment.RenderedSets
import PathGlob.Proofs.Segment.LetterCase
import PathGlob.Proofs.Walk.FlagChanges
import PathGlob.Proofs.Traversal.PathNames
import PathGlob.Proofs.Braces.AlignedEscapes
import PathGlob.Proofs.Flags.Texts
import PathGlob.Proofs.Braces.Arena
import PathGlob.Proofs.Tiling
import PathGlob.Proofs.Scanning
