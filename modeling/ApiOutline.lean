import ApiOutline.Main
import ApiOutline.Proofs.Config.Circles
import ApiOutline.Proofs.Config.Tower
import ApiOutline.Proofs.Log.Session
import ApiOutline.Proofs.Module.Entries
import ApiOutline.Proofs.Module.Exports
import ApiOutline.Proofs.Path.Layout
import ApiOutline.Proofs.Project.Entries
import ApiOutline.Proofs.Project.Outputs
import ApiOutline.Proofs.Project.Persistence
import ApiOutline.Proofs.Project.Strictness
import ApiOutline.Proofs.Relocation.Entries
import ApiOutline.Proofs.Run.Workspace
import ApiOutline.Proofs.Module.Listing
import ApiOutline.Proofs.Project.Answers
import ApiOutline.Proofs.Run.Ending
import ApiOutline.Proofs.Run.Arguments
import ApiOutline.Proofs.Module.Printing
import ApiOutline.Proofs.Run.Package
import ApiOutline.Proofs.Json.Stripping
import ApiOutline.Proofs.Module.Counting
import ApiOutline.Proofs.Run.Documents
import ApiOutline.Proofs.Config.Reading
import ApiOutline.Proofs.Sources.Covering
import ApiOutline.Proofs.Project.MainModule
import ApiOutline.Proofs.Project.Exclusion
import ApiOutline.Proofs.Project.Enumeration
import ApiOutline.Proofs.Project.Everything
import ApiOutline.Proofs.Module.Faults
import ApiOutline.Proofs.Module.Ambient
import ApiOutline.Proofs.Project.Naming
import ApiOutline.Proofs.Module.Titles
import ApiOutline.Proofs.Config.Bases
import ApiOutline.Proofs.Config.Anchoring
import ApiOutline.Proofs.Manifest.Required
