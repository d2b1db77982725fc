import CodeIndex.Main
import CodeIndex.Proofs.Action
import CodeIndex.Proofs.Catalogue
import CodeIndex.Proofs.Catalogue.Exact
import CodeIndex.Proofs.FileSystem.Below
import CodeIndex.Proofs.Indexing.Aside
import CodeIndex.Proofs.Indexing.Clashes
import CodeIndex.Proofs.Indexing.Rerun
import CodeIndex.Proofs.FileSystem.Footprint
import CodeIndex.Proofs.Indexing.Footprint
import CodeIndex.Proofs.FileSystem.Links
import CodeIndex.Proofs.Page.Reassembly
import CodeIndex.Proofs.Indexing.Described
import CodeIndex.Proofs.Indexing.History
import CodeIndex.Proofs.Indexing.Refresh
import CodeIndex.Proofs.Metadata.Store
import CodeIndex.Proofs.Tree.Shown
import CodeIndex.Proofs.Ignore
import CodeIndex.Proofs.Catalogue.Pruning
import CodeIndex.Proofs.Tree.Lines
import CodeIndex.Proofs.Tree.Compact
import CodeIndex.Proofs.Tree.Unambiguous
import CodeIndex.Proofs.Ignore.BuiltIn
import CodeIndex.Proofs.Page.Size
import CodeIndex.Proofs.Page.Fewest
import CodeIndex.Proofs.Python.Lines
import CodeIndex.Proofs.Text.Reader
import CodeIndex.Proofs.Parameters
import CodeIndex.Proofs.Python.Header
import CodeIndex.Proofs.Python.Entries
import CodeIndex.Proofs.Python.Functions
import CodeIndex.Proofs.Python.Imports
import CodeIndex.Proofs.Python.Methods
import CodeIndex.Proofs.TypeScript.Declarations
import CodeIndex.Proofs.Outline
import CodeIndex.Proofs.TypeScript.Forms
import CodeIndex.Proofs.TypeScript.Parameters
import CodeIndex.Proofs.TypeScript.Imports
import CodeIndex.Proofs.Python.Bases
import CodeIndex.Proofs.Page.Sections
import CodeIndex.Proofs.Python.Private
import CodeIndex.Proofs.Tree.Layout
import CodeIndex.Proofs.Metadata.CleanUp
import CodeIndex.Proofs.Ignore.Relative
import CodeIndex.Proofs.Json.Files
import CodeIndex.Proofs.Ignore.Files
import CodeIndex.Proofs.Metadata.Directory
