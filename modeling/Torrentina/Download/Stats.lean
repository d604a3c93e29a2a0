import Torrentina.Net
import Mathlib.Algebra.Group.Nat.Defs

/-!
# Live download statistics

The registry of connected peers and the number of wire bytes received. Peers
are keyed by address: a second connection to the same address replaces the
entry of the first.
-/

namespace Torrentina.Download

/-- Per-peer live state. -/
structure PeerEntry where
  choked : Bool
  havePieces : Nat
  downloaded : Nat
  deriving DecidableEq, Repr

/-- A peer starts out choking us. -/
def PeerEntry.default : PeerEntry := ⟨true, 0, 0⟩

/-- Shared swarm statistics. -/
structure SwarmStats where
  totalDownloaded : Nat
  peers : List (SocketAddr × PeerEntry)
  deriving DecidableEq, Repr

namespace SwarmStats

/-- No bytes, no peers. -/
def new : SwarmStats := ⟨0, []⟩

/-- Remove a peer that has disconnected. -/
def peerDisconnected (stats : SwarmStats) (addr : SocketAddr) : SwarmStats :=
  { stats with peers := stats.peers.filter fun e => e.1 ≠ addr }

/-- Register a freshly connected peer. -/
def peerConnected (stats : SwarmStats) (addr : SocketAddr) : SwarmStats :=
  { stats with
    peers := (addr, PeerEntry.default) :: (stats.peerDisconnected addr).peers }

/-- Update the entry of a peer, if it is registered. -/
def updateEntry (stats : SwarmStats) (addr : SocketAddr) (f : PeerEntry → PeerEntry) :
    SwarmStats :=
  { stats with peers := stats.peers.map fun e => if e.1 = addr then (e.1, f e.2) else e }

/-- Update whether a peer is choking us. -/
def setChoked (stats : SwarmStats) (addr : SocketAddr) (choked : Bool) : SwarmStats :=
  stats.updateEntry addr fun e => { e with choked }

/-- Record how many pieces a peer advertises. -/
def setHaveCount (stats : SwarmStats) (addr : SocketAddr) (havePieces : Nat) : SwarmStats :=
  stats.updateEntry addr fun e => { e with havePieces }

/-- Record `len` bytes received from a peer; both counters are `u64`. -/
def recordBlock (stats : SwarmStats) (addr : SocketAddr) (len : Nat) : SwarmStats :=
  { stats with totalDownloaded := (stats.totalDownloaded + len) % 2 ^ 64 }.updateEntry addr
    fun e => { e with downloaded := (e.downloaded + len) % 2 ^ 64 }

end SwarmStats

end Torrentina.Download
