import Parcel.Commands

/-!
# Typed lines

From the lines that are typed at the clients to what the others print: the threads of the
clients, the wires, and the daemon in between.
-/

namespace Parcel
open ByteStrings

namespace SendPass

variable {p : SendPass} {user : List UInt8}

end SendPass

def uttered (sender : Sender) : List (List UInt8 × Sent) :=
  sender.said.map fun u => (u.user, u.message)

namespace Typing

variable {session : Key} {usernames : ℕ → Vector UInt8 64} {typed : ℕ → List SendEvent}

end Typing

end Parcel
