import PluginShading.Archive.Checksum
import PluginShading.Archive.Gzip
import PluginShading.Archive.Package
import PluginShading.Archive.Phar
import PluginShading.Archive.Tar
import PluginShading.Assembly
import PluginShading.Build.Basic
import PluginShading.Build.Run
import PluginShading.Command.Arguments
import PluginShading.Command.Options
import PluginShading.Command.Run
import PluginShading.Command.Text
import PluginShading.Descriptor
import PluginShading.Failure
import PluginShading.Files.Bytes
import PluginShading.Files.Copy
import PluginShading.Files.Disk
import PluginShading.Files.IoError
import PluginShading.Files.Temporary
import PluginShading.Files.Tree
import PluginShading.Files.Walk
import PluginShading.Install
import PluginShading.Json.Number
import PluginShading.Json.Token
import PluginShading.Json.Value
import PluginShading.Log
import PluginShading.Main
import PluginShading.Manifest.Basic
import PluginShading.Manifest.Error
import PluginShading.Manifest.Reader
import PluginShading.Number.Binary64
import PluginShading.Number.Shortest
import PluginShading.Path
import PluginShading.Programs.Run
import PluginShading.Programs.Script
import PluginShading.Proofs.Archive.Entries
import PluginShading.Proofs.Archive.Phar
import PluginShading.Proofs.Archive.Replacing
import PluginShading.Proofs.Archive.Storing
import PluginShading.Proofs.Assembly
import PluginShading.Proofs.Build.Containment
import PluginShading.Proofs.Build.Failure
import PluginShading.Proofs.Build.Filling
import PluginShading.Proofs.Build.Parts
import PluginShading.Proofs.Files.Anchor
import PluginShading.Proofs.Files.Copying
import PluginShading.Proofs.Files.Descent
import PluginShading.Proofs.Files.Exact
import PluginShading.Proofs.Files.Follow
import PluginShading.Proofs.Files.Fresh
import PluginShading.Proofs.Files.Ground
import PluginShading.Proofs.Files.Growth
import PluginShading.Proofs.Files.Lasting
import PluginShading.Proofs.Files.Listing
import PluginShading.Proofs.Files.Making
import PluginShading.Proofs.Files.Moving
import PluginShading.Proofs.Files.Names
import PluginShading.Proofs.Files.Refusing
import PluginShading.Proofs.Files.Site
import PluginShading.Proofs.Files.Tree
import PluginShading.Proofs.Json.Numerals
import PluginShading.Proofs.Json.Printing
import PluginShading.Proofs.Json.Relisting
import PluginShading.Proofs.Json.Scaling
import PluginShading.Proofs.Json.Scanning
import PluginShading.Proofs.Manifest.Places
import PluginShading.Proofs.Manifest.Relisting
import PluginShading.Proofs.Manifest.Spec
import PluginShading.Proofs.Number.Rounding
import PluginShading.Proofs.Number.Shortest
import PluginShading.Proofs.Resolution.Once
import PluginShading.Proofs.Resolution.Precedence
import PluginShading.Proofs.Resolution.Reads
import PluginShading.Proofs.Resolution.Visit
import PluginShading.Proofs.Shading.Commute
import PluginShading.Proofs.Shading.Confinement
import PluginShading.Proofs.Shading.Cutting
import PluginShading.Proofs.Shading.Fault
import PluginShading.Proofs.Shading.Fragment
import PluginShading.Proofs.Shading.Generated
import PluginShading.Proofs.Shading.Groups
import PluginShading.Proofs.Shading.Lines
import PluginShading.Proofs.Shading.Opening
import PluginShading.Proofs.Shading.References
import PluginShading.Proofs.Shading.Rereading
import PluginShading.Proofs.Shading.Segments
import PluginShading.Proofs.Shading.Simultaneous
import PluginShading.Proofs.Shading.Survival
import PluginShading.Proofs.Source.Braces
import PluginShading.Proofs.Source.Completeness
import PluginShading.Proofs.Source.Cutting
import PluginShading.Proofs.Source.Division
import PluginShading.Proofs.Source.Fault
import PluginShading.Proofs.Source.Imports
import PluginShading.Proofs.Source.Layout
import PluginShading.Proofs.Source.Lexemes
import PluginShading.Proofs.Source.Literals
import PluginShading.Proofs.Source.Lookahead
import PluginShading.Proofs.Source.Machine
import PluginShading.Proofs.Source.Nesting
import PluginShading.Proofs.Source.Reading
import PluginShading.Proofs.Source.Renaming
import PluginShading.Proofs.Source.Rerun
import PluginShading.Proofs.Source.Shapes
import PluginShading.Proofs.Source.Shortening
import PluginShading.Proofs.Source.Simulation
import PluginShading.Proofs.Source.Spelling
import PluginShading.Proofs.Source.Statement
import PluginShading.Proofs.Source.Words
import PluginShading.Proofs.Version.Digits
import PluginShading.Proofs.Version.Literals
import PluginShading.Proofs.Version.Window
import PluginShading.Proofs.World
import PluginShading.Resolution.Walk
import PluginShading.Shading.Namespace
import PluginShading.Shading.Pass
import PluginShading.Shading.Rule
import PluginShading.Source.Alphabet
import PluginShading.Source.File
import PluginShading.Source.Lexeme
import PluginShading.Source.Lexer
import PluginShading.Source.Split
import PluginShading.Source.Token
import PluginShading.Text.Hex
import PluginShading.Text.Lines
import PluginShading.Text.Pieces
import PluginShading.Text.Space
import PluginShading.Version.Semantic
import PluginShading.Version.Spec
import PluginShading.World
import PluginShading.Yaml.Document
import PluginShading.Yaml.Event
import PluginShading.Yaml.Scalar
import PluginShading.Yaml.Token
