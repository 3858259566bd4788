import Reclass.Main
import Reclass.Proofs.Handler.Grammar
import Reclass.Proofs.Handler.KeyNames
import Reclass.Proofs.Handler.Replacement
import Reclass.Proofs.Module.ImportLines
import Reclass.Proofs.Module.Mention
import Reclass.Proofs.Module.RenamingImports
import Reclass.Proofs.Module.Rerun
import Reclass.Proofs.Module.Surroundings
import Reclass.Proofs.Script.CrlfTokens
import Reclass.Proofs.Script.Division
import Reclass.Proofs.Script.Matching
import Reclass.Proofs.Script.Relayout
import Reclass.Proofs.Batch.Backup
import Reclass.Proofs.Batch.Isolation
import Reclass.Proofs.Batch.Order
import Reclass.Proofs.Workspace.SharedTable
import Reclass.Proofs.Handler.Segments
import Reclass.Proofs.Handler.MethodValues
import Reclass.Proofs.Handler.Slots
import Reclass.Proofs.Renaming.Rewriter
import Reclass.Proofs.Renaming.WholeNames
import Reclass.Proofs.Module.BareNames
import Reclass.Proofs.Path.Reach
import Reclass.Proofs.Script.WideSpaces
import Reclass.Proofs.Script.LiteralText
import Reclass.Proofs.Script.TemplateTree
import Reclass.Proofs.Path.Canonical
import Reclass.Proofs.Handler.FaultPlaces
import Reclass.Proofs.Script.ByteCalls
import Reclass.Proofs.Handler.AnyBody
