import Chore.Machine.Script
import Chore.Main
import Chore.Proofs.Archive.Confinement
import Chore.Proofs.Block.Adequacy
import Chore.Proofs.Block.Brackets
import Chore.Proofs.Block.OnePass
import Chore.Proofs.Block.Termination
import Chore.Proofs.File.Exactness
import Chore.Proofs.File.Relative
import Chore.Proofs.Machine.Arithmetic
import Chore.Proofs.Machine.Comparing
import Chore.Proofs.Machine.Downloading
import Chore.Proofs.Machine.Listing
import Chore.Proofs.Machine.Replay
import Chore.Proofs.Token.Complaints
import Chore.Proofs.Token.Concatenation
import Chore.Proofs.Token.Display
import Chore.Proofs.Token.Names
import Chore.Proofs.Typing.Agreement
import Chore.Proofs.Typing.CallFrames
import Chore.Proofs.Typing.CountedReturns
import Chore.Proofs.Typing.Crossing
import Chore.Proofs.Typing.Decides
import Chore.Proofs.Typing.Hoisted
import Chore.Proofs.Typing.Returned
