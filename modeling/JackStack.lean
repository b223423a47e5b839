import JackStack.Main
import JackStack.Proofs.Discipline
import JackStack.Proofs.Jumps
import JackStack.Proofs.Operands
import JackStack.Proofs.Layout
import JackStack.Proofs.Preservation
import JackStack.Proofs.Format
import JackStack.Proofs.Indentation
import JackStack.Proofs.Isolation
import JackStack.Proofs.Constants
import JackStack.Proofs.Scopes
import JackStack.Proofs.IntegerConstants
import JackStack.Proofs.Positions
import JackStack.Proofs.VariableNames
import JackStack.Proofs.Overwriting
import JackStack.Proofs.Termination
