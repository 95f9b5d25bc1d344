import Codegen.Main
import Codegen.Proofs.Bitmap.Sets
import Codegen.Proofs.Liveness.Exact
import Codegen.Proofs.Canonical.Divisions
import Codegen.Proofs.Block.Arrangement
import Codegen.Proofs.Coloring.Moves
import Codegen.Proofs.Coloring.Consistent
import Codegen.Proofs.Allocation.FirstRound
import Codegen.Proofs.Allocation.Representatives
import Codegen.Proofs.Allocation.Renaming
import Codegen.Proofs.Selection.Completeness
import Codegen.Proofs.Selection.Printing
import Codegen.Proofs.Selection.Leaves
import Codegen.Proofs.Target.Frames
import Codegen.Proofs.Program.Contract
import Codegen.Proofs.Program.Data
