import PlaceMap.Config
import PlaceMap.FileName
import PlaceMap.FileSystem
import PlaceMap.FileSystem.Disk
import PlaceMap.FileSystem.Stored
import PlaceMap.Glob
import PlaceMap.Glob.Pattern
import PlaceMap.Glob.Rule
import PlaceMap.Glob.Segment
import PlaceMap.Json
import PlaceMap.Json.Printer
import PlaceMap.Json.Reader
import PlaceMap.Number
import PlaceMap.Outline
import PlaceMap.Outline.Markup
import PlaceMap.Outline.Printing
import PlaceMap.Path
import PlaceMap.Project
import PlaceMap.Project.Loading
import PlaceMap.Project.Schema
import PlaceMap.Proofs.Config.Rereading
import PlaceMap.Proofs.Config.Spelling
import PlaceMap.Proofs.FileName.Luau
import PlaceMap.Proofs.FileName.Role
import PlaceMap.Proofs.FileSystem.Disk
import PlaceMap.Proofs.FileSystem.Healthy
import PlaceMap.Proofs.FileSystem.Stored
import PlaceMap.Proofs.Glob.Rules
import PlaceMap.Proofs.Json.Digits
import PlaceMap.Proofs.Outline.Shown
import PlaceMap.Proofs.Path.Normal
import PlaceMap.Proofs.Path.Relocation
import PlaceMap.Proofs.Project.Grammar
import PlaceMap.Proofs.Resolver.BelowIgnored
import PlaceMap.Proofs.Resolver.BoundScript
import PlaceMap.Proofs.Resolver.Containers
import PlaceMap.Proofs.Resolver.Faults
import PlaceMap.Proofs.Resolver.Ignored
import PlaceMap.Proofs.Resolver.Missing
import PlaceMap.Proofs.Resolver.Query
import PlaceMap.Proofs.Resolver.Registered
import PlaceMap.Proofs.Resolver.Relocation
import PlaceMap.Proofs.Resolver.Reordered
import PlaceMap.Proofs.Resolver.Respelled
import PlaceMap.Proofs.Resolver.Returning
import PlaceMap.Proofs.Resolver.SingleProject
import PlaceMap.Proofs.Resolver.SourceFiles
import PlaceMap.Proofs.Resolver.Synthetic
import PlaceMap.Proofs.Schema.Accepting
import PlaceMap.Proofs.Table.FileMap
import PlaceMap.Proofs.Table.Inclusion
import PlaceMap.Proofs.Table.Relocation
import PlaceMap.Proofs.Table.Sound
import PlaceMap.Proofs.Text.Split
import PlaceMap.Proofs.TreePath.Relative
import PlaceMap.Proofs.Walk.Actions
import PlaceMap.Proofs.Walk.Basic
import PlaceMap.Proofs.Walk.BrokenProjects
import PlaceMap.Proofs.Walk.Depth
import PlaceMap.Proofs.Walk.Discovery
import PlaceMap.Proofs.Walk.DocumentOrder
import PlaceMap.Proofs.Walk.Doing
import PlaceMap.Proofs.Walk.Endless
import PlaceMap.Proofs.Walk.Failing
import PlaceMap.Proofs.Walk.Findings
import PlaceMap.Proofs.Walk.Found
import PlaceMap.Proofs.Walk.IgnoredProjects
import PlaceMap.Proofs.Walk.Isolation
import PlaceMap.Proofs.Walk.Log
import PlaceMap.Proofs.Walk.Mapping
import PlaceMap.Proofs.Walk.OptionalBindings
import PlaceMap.Proofs.Walk.Preorder
import PlaceMap.Proofs.Walk.Reached
import PlaceMap.Proofs.Walk.Related
import PlaceMap.Proofs.Walk.Relocation
import PlaceMap.Proofs.Walk.Searching
import PlaceMap.Proofs.Walk.Stopping
import PlaceMap.Proofs.Walk.Termination
import PlaceMap.Resolver
import PlaceMap.Schema
import PlaceMap.Schema.Scalar
import PlaceMap.ScriptKind
import PlaceMap.Table
import PlaceMap.Table.Walk
import PlaceMap.Text.Blank
import PlaceMap.Text.Printable
import PlaceMap.Text.Quoted
import PlaceMap.Text.Ranges
import PlaceMap.Text.Split
import PlaceMap.Text.Utf8
import PlaceMap.Text.Width
import PlaceMap.TreePath
