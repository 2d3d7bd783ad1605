import PullScript.Main
import PullScript.Proofs.View.Running
import PullScript.Proofs.Cutting.Joining
import PullScript.Proofs.Cutting.Units
import PullScript.Proofs.Input.Delivery
import PullScript.Proofs.Kinds
import PullScript.Proofs.Lists.Taking
import PullScript.Proofs.Recasting
import PullScript.Proofs.Rewinding.Cycling
import PullScript.Proofs.Script.Calls
import PullScript.Proofs.Script.Places
import PullScript.Proofs.Script.Transparency
import PullScript.Proofs.Ty.Matching
import PullScript.Proofs.Ty.Qualifying
import PullScript.Session.Perform
import PullScript.Proofs.Text.Searching
import PullScript.Proofs.Text.Rendering
import PullScript.Proofs.Rewinding.Agreeing
import PullScript.Proofs.Ty.Derivations
import PullScript.Proofs.Script.Literals
import PullScript.Proofs.Cutting.Restoring
import PullScript.Proofs.Input.Restarting
import PullScript.Proofs.Text.Quoting
import PullScript.Proofs.Text.Wrapping
