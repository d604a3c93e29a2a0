import Mathlib.Data.List.Basic

/-!
# Socket addresses

The remote addresses peers are connected under. Only their identity matters to
the download.
-/

namespace Torrentina

/-- An IPv4 or IPv6 address with a port. -/
inductive SocketAddr
  | v4 (ip : BitVec 32) (port : UInt16)
  | v6 (ip : BitVec 128) (port : UInt16)
  deriving DecidableEq, Repr

/-- `IpAddr`. -/
inductive IpAddr
  | v4 (ip : BitVec 32)
  | v6 (ip : BitVec 128)
  deriving DecidableEq, Repr

/-- `SocketAddr::new`. -/
def SocketAddr.new : IpAddr → UInt16 → SocketAddr
  | .v4 ip, port => .v4 ip port
  | .v6 ip, port => .v6 ip port

end Torrentina
