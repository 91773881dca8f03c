import Mathlib.Data.BitVec
import Virtkit.Common.Least
import Virtkit.Common.Table
import Virtkit.Common.Transition

/-!
# The egress guard and its DNS pins

A policy allows everything, or the IPv4 ranges and the name suffixes it lists. A range may be scoped to
a port. A name is allowed as it is, or under, a listed suffix, compared without case and without dots at
its end.

A switch's guard decides each flow of a guest by the layers that hold its source: the node's cap, the
job's policy, which a file's edit replaces, a service's own, and the hub's. A layer passes the
destinations it lists, and those pinned for the source under a name it allows: the addresses it was handed in
answers, until each pin expires. The names an address is pinned under and the pins of the switch are bounded:
past a bound those that expire soonest go. In dry-run what the node's layers refuse is carried.

An operation holds the guard for its whole run here, but each of a decision's checks reads the clock
anew.
-/

namespace Virtkit.Switch

open Virtkit.Common

/-- An IPv4 address. -/
abbrev Ipv4 := BitVec 32

inductive IpAddr where
  | v4 (ip : Ipv4)
  | v6 (ip : BitVec 128)
  deriving DecidableEq

/-- An address and port. -/
structure SocketAddr where
  ip : IpAddr
  port : ℕ
  deriving DecidableEq

def mask4 (length : ℕ) : Ipv4 := if length = 0 then 0 else BitVec.allOnes 32 <<< (32 - length)

/-- A rule for destinations: a network, and the port where it is scoped to one. -/
structure Cidr4 where
  net : Ipv4
  /-- The length of the network's prefix. -/
  length : ℕ
  port : Option ℕ
  length_le : length ≤ 32
  masked : net &&& mask4 length = net

/-- The rule of an address's network. -/
def Cidr4.ofAddress (ip : Ipv4) (length : ℕ) (hlength : length ≤ 32) (port : Option ℕ) : Cidr4 where
  net := ip &&& mask4 length
  length := length
  port := port
  length_le := hlength
  masked := by rw [BitVec.and_assoc, BitVec.and_self]

variable (c : Cidr4) (ip : Ipv4) (port : ℕ)

/-- Whether a rule admits an address and port. -/
def Cidr4.matches : Bool :=
  ip &&& mask4 c.length = c.net && c.port.all (· = port)

/-- What a rule lists: the addresses with its network's leading bits, at its port. -/
def Cidr4.Lists : Prop :=
  (∀ k, 32 - c.length ≤ k → ip.getLsbD k = c.net.getLsbD k) ∧ ∀ p, c.port = some p → port = p

theorem getLsbD_mask4 {length : ℕ} (h : length ≤ 32) (k : ℕ) :
    (mask4 length).getLsbD k = (decide (k < 32) && decide (32 - length ≤ k)) := by
  unfold mask4
  split_ifs with hzero
  · subst hzero
    by_cases hk : k < 32 <;> simp [hk]
  · rw [BitVec.getLsbD_shiftLeft, BitVec.getLsbD_allOnes]
    by_cases hk : k < 32
    · have hless : k - (32 - length) < 32 := by omega
      by_cases hlow : 32 - length ≤ k
      · simp [hk, hlow, hless]
      · simp [hk, hlow]
    · simp [hk]

/-- A range matches the addresses of its network and its port. -/
theorem Cidr4.matches_iff : c.matches ip port = true ↔ c.Lists ip port := by
  have hport : c.port.all (· = port) = true ↔ ∀ p, c.port = some p → port = p := by
    cases c.port with
    | none => simp
    | some p => simp [eq_comm]
  rw [Cidr4.matches, Bool.and_eq_true, decide_eq_true_eq, hport, Cidr4.Lists]
  refine and_congr_left fun _ => ⟨fun h k hk => ?_, fun h => ?_⟩
  · rw [← h, BitVec.getLsbD_and, getLsbD_mask4 c.length_le]
    by_cases hlt : k < 32
    · simp [hlt, hk]
    · simp [hlt, BitVec.getLsbD_of_ge ip k (Nat.not_lt.mp hlt)]
  · rw [← c.masked]
    apply BitVec.eq_of_getLsbD_eq
    intro k hlt
    rw [BitVec.getLsbD_and, BitVec.getLsbD_and, getLsbD_mask4 c.length_le]
    by_cases hk : 32 - c.length ≤ k
    · rw [h k hk]
    · simp [hk]

inductive Egress where
  | allowAll
  | allow (ips : List Cidr4) (names : List String)

namespace Egress

/-- Whether it restricts anything: an allowlist, even an empty one. -/
def restricts : Egress → Bool
  | allowAll => false
  | allow _ _ => true

/-- Whether it lists a destination. IPv6 is refused under an allowlist. -/
def allowsIp : Egress → IpAddr → ℕ → Bool
  | allowAll, _, _ => true
  | allow ips _, .v4 ip, port => ips.any fun c => c.matches ip port
  | allow _ _, .v6 _, _ => false

/-- A name without case and without dots at its end. -/
def normalHost (host : String) : List Char :=
  ((host.toList.reverse.dropWhile (· = '.')).reverse).map Char.toLower

/-- Whether it allows a name: one equal to or under a listed suffix. -/
def allowsHost : Egress → String → Bool
  | allowAll, _ => true
  | allow _ names, host =>
    let h := normalHost host
    names.any fun n => h = n.toList || ('.' :: n.toList).isSuffixOf h

theorem allowsIp_iff {layer : Egress} (h : layer.restricts = true) (ip : Ipv4) (port : ℕ) :
    layer.allowsIp (.v4 ip) port = true ↔ ∃ ips names, layer = allow ips names ∧ ∃ c ∈ ips, c.Lists ip port := by
  cases layer with
  | allowAll => exact nomatch h
  | allow ips names => simp [allowsIp, Cidr4.matches_iff]

end Egress

/-- An address's octet, from the first. -/
def octet (ip : Ipv4) (k : ℕ) : ℕ := (ip.toNat >>> (24 - 8 * k)) % 256

/-- Whether an address is never dialled: documentation, `0.0.0.0/8`, loopback, link-local, multicast
and broadcast. -/
def unroutable (ip : Ipv4) : Bool :=
  let o := octet ip
  (o 0 = 192 && o 1 = 0 && o 2 = 2) || (o 0 = 198 && o 1 = 51 && o 2 = 100) ||
    (o 0 = 203 && o 1 = 0 && o 2 = 113) || o 0 = 0 || o 0 = 127 || (o 0 = 169 && o 1 = 254) ||
    (224 ≤ o 0 && o 0 ≤ 239) || ip = BitVec.allOnes 32

/-- A source and an address it resolved. -/
abbrev PinKey := Ipv4 × Ipv4

/-- The names an address was resolved for, each with its expiry. -/
abbrev NamePin := Table String ℕ

/-- The most names one address stays pinned under for one source. -/
def pinNamesPerAddr : ℕ := 64

namespace NamePin

/-- Pin it for a name, never shortening what an earlier answer granted. -/
def extend (pin : NamePin) (name : String) (until_ : ℕ) : NamePin :=
  pin.insert name (match pin.lookup name with
    | some t => max t until_
    | none => until_)

/-- The name whose pin expires first: of several, the one the hash table has first. -/
def soonest (pin : NamePin) (first : String) : Option String :=
  (firstMin (fun a b : Sigma fun _ : String => ℕ => compare a.2 b.2) pin.entries).map fun e =>
    if pin.lookup first = some e.2 then first else e.1

/-- The names still live, without the one that expires first where another name has no room. -/
def room (held : NamePin) (name : String) (now : ℕ) (first : String) : NamePin :=
  let names := held.retain fun _ t => now < t
  if (names.lookup name).isNone && pinNamesPerAddr ≤ names.entries.length then
    match NamePin.soonest names first with
    | some soonest => names.erase soonest
    | none => names
  else names

end NamePin

def maxPins : ℕ := 16384

/-- Expired pins are swept every so many pins taken. -/
def pinSweepEvery : ℕ := 1024

structure Pins where
  byAddr : Table PinKey NamePin
  /-- The names held. -/
  len : ℕ
  /-- Pins taken since the last sweep. -/
  sinceSweep : ℕ
  /-- The most names held. -/
  max : ℕ

namespace Pins

/-- No pins, to hold so many names, at least one. -/
def bounded (max : ℕ) : Pins := ⟨∅, 0, 0, Nat.max max 1⟩

variable (p : Pins) (key : PinKey) (name : String)

def expiry : Option ℕ :=
  (p.byAddr.lookup key).bind fun names => names.lookup name

/-- Keep the names a test accepts, and drop the entries left with none. -/
def retain (p : Pins) (f : PinKey → String → ℕ → Bool) : Pins :=
  let byAddr := p.byAddr.filterMap fun key names =>
    let names := names.retain (f key)
    if names.entries.isEmpty then none else some names
  { p with byAddr := byAddr, len := byAddr.sum fun _ names => names.entries.length }

/-- Drop every name that expires at or before a time. -/
def dropThrough (p : Pins) (cutoff : ℕ) : Pins :=
  { p with sinceSweep := 0 }.retain fun _ _ t => cutoff < t

/-- Back within the bound: drop the expired names, then the eighth that expires soonest. -/
def shed (p : Pins) (now : ℕ) : Pins :=
  let p := p.dropThrough now
  let target := p.max - p.max / 8
  if p.len ≤ target then p
  else
    let expiries := p.byAddr.entries.flatMap fun e => e.2.entries.map fun n => n.2
    match (expiries.mergeSort (· ≤ ·))[p.len - target - 1]? with
    | some cutoff => p.retain fun _ _ t => cutoff < t
    | none => p

/-- The pins after those that expired are swept, as often as that is done. -/
def swept (p : Pins) (now : ℕ) : Pins :=
  let p := { p with sinceSweep := p.sinceSweep + 1 }
  if pinSweepEvery ≤ p.sinceSweep then p.dropThrough now else p

def take (until_ now : ℕ) (first : String) : Pins :=
  let held := (p.byAddr.lookup key).getD ∅
  let names := NamePin.extend (NamePin.room held name now first) name until_
  { p with
    byAddr := p.byAddr.insert key names
    len := p.len - held.entries.length + names.entries.length }

/-- Pin an address for a name, within the bounds. -/
def pin (until_ now : ℕ) (first : String) : Pins :=
  let p := (p.swept now).take key name until_ now first
  if p.max < p.len then p.shed now else p

/-- Whether an address is pinned under a name a test accepts. Its expired names go. -/
def holds (p : Pins) (key : PinKey) (now : ℕ) (f : String → Bool) : Bool × Pins :=
  match p.byAddr.lookup key with
  | none => (false, p)
  | some held =>
    let names := held.retain fun _ t => now < t
    (names.keys.any f, { p with
        byAddr := if names.entries.isEmpty then p.byAddr.erase key else p.byAddr.insert key names
        len := p.len - held.entries.length + names.entries.length })

end Pins

def dnsPort : ℕ := 53

structure EgressGuard where
  policy : Egress
  perSource : Table Ipv4 Egress
  gateway : Ipv4
  dryRun : Bool
  pinned : Pins
  cap : Option Egress
  hub : Option Egress

/-- The guard's call on a flow. -/
inductive Verdict where
  | allow
  | deny
  /-- Denied by the policy, but carried. -/
  | wouldDeny
  deriving DecidableEq

/-- When a pin taken now expires: after the time to live, half a minute at least, and a minute. -/
def pinUntil (now ttl : ℕ) : ℕ := now + (max ttl 30 + 60) * 1000000000

namespace EgressGuard

variable (g : EgressGuard)

/-- The node's layers that hold a source, given the job's policy, in the order they are checked. -/
def nodeLayers (job : Egress) (src : Ipv4) : List Egress :=
  g.cap.toList ++ [job] ++ (g.perSource.lookup src).toList

/-- Replace the job's policy, and drop the pins of names it does not allow. -/
def replacePolicy (policy : Egress) : EgressGuard :=
  { g with pinned := g.pinned.retain fun _ name _ => policy.allowsHost name, policy := policy }

/-- Whether the hub's layer allows a name. -/
def hubAllowsHost (host : String) : Bool := g.hub.all fun h => h.allowsHost host

/-- Whether the pins hold an address for a source under a name a layer allows. Expired names go. -/
def pinnedBy (g : EgressGuard) (layer : Egress) (src : Ipv4) (dst : SocketAddr) (now : ℕ) :
    Bool × EgressGuard :=
  match dst.ip with
  | .v6 _ => (false, g)
  | .v4 ip =>
    let (held, pinned) := g.pinned.holds (src, ip) now layer.allowsHost
    (held, { g with pinned := pinned })

/-- Whether a layer admits a flow. -/
def layerAllows (layer : Egress) (src : Ipv4) (dst : SocketAddr) (now : ℕ) :
    Bool × EgressGuard :=
  if !layer.restricts then (true, g)
  -- DNS must go to the switch's resolver, so that pinning holds.
  else if dst.port = dnsPort && dst.ip ≠ .v4 g.gateway then (false, g)
  else if layer.allowsIp dst.ip dst.port then (true, g)
  else g.pinnedBy layer src dst now

/-- Whether the hub's layer admits a flow. -/
def hubAllows (src : Ipv4) (dst : SocketAddr) (now : ℕ) : Bool × EgressGuard :=
  match g.hub with
  | none => (true, g)
  | some hub => g.layerAllows hub src dst now

/-- Whether each of some layers admits a flow, up to the first that does not. -/
def layersAllow (src : Ipv4) (dst : SocketAddr) (clock : ℕ → ℕ) :
    List Egress → ℕ → EgressGuard → Bool × EgressGuard
  | [], _, g => (true, g)
  | layer :: layers, k, g =>
    match g.layerAllows layer src dst (clock k) with
    | (true, g) => layersAllow src dst clock layers (k + 1) g
    | (false, g) => (false, g)

/-- Whether the node's layers admit a flow. -/
def allows (src : Ipv4) (dst : SocketAddr) (clock : ℕ → ℕ) : Bool × EgressGuard :=
  layersAllow src dst clock (g.nodeLayers g.policy src) 1 g

/-- What to do with a flow, given what the checks read of the clock: the hub's first, then the node's in
their order. -/
def verdict (src : Option Ipv4) (dst : SocketAddr) (clock : ℕ → ℕ) : Verdict × EgressGuard :=
  match src with
  | none => (.deny, g)
  | some src =>
    match g.hubAllows src dst (clock 0) with
    | (false, g) => (.deny, g)
    | (true, g) =>
      match g.allows src dst clock with
      | (true, g) => (.allow, g)
      | (false, g) => (if g.dryRun then .wouldDeny else .deny, g)

/-- Pin the addresses an answer gave a source for a name, and whether every layer of the node's allows
it. With each address goes the name the hash table has first among those that expire soonest. -/
def recordIfAllowed (src : Ipv4) (name : String) (ips : List (Ipv4 × String))
    (ttl now : ℕ) : Bool × EgressGuard :=
  let layers := g.nodeLayers g.policy src
  let allowed := layers.all fun l => l.allowsHost name
  if !g.hubAllowsHost name then (false, g)
  else
    let restricted := layers.any Egress.restricts || g.hub.isSome
    if (!allowed && !g.dryRun) || !restricted || ips.isEmpty then (allowed, g)
    else
      (allowed, { g with
        pinned := (ips.filter fun ip => !unroutable ip.1).foldl
          (fun pins ip => pins.pin (src, ip.1) name (pinUntil now ttl) now ip.2) g.pinned })

end EgressGuard

/-- An answer a source was given. -/
structure Answer where
  src : Ipv4
  name : String
  ips : List Ipv4
  ttl : ℕ
  time : ℕ

/-- The guard in a run, with the time and the answers recorded, newest first. -/
structure Guarded where
  guard : EgressGuard
  now : ℕ
  answers : List Answer

inductive Event where
  | answered (src : Ipv4) (name : String) (ips : List (Ipv4 × String)) (ttl : ℕ)
  | replaced (policy : Egress)
  | passed (time : ℕ)
  /-- A decision, with the time that passes before each of its checks. -/
  | decided (src : Option Ipv4) (dst : SocketAddr) (ticks : ℕ → ℕ)

namespace Guarded

/-- What a decision's checks read of the clock. -/
def clock (s : Guarded) (ticks : ℕ → ℕ) (k : ℕ) : ℕ := s.now + ((List.range (k + 1)).map ticks).sum

def step (s : Guarded) : Event → Guarded
  | .answered src name ips ttl =>
    { s with
      guard := (s.guard.recordIfAllowed src name ips ttl s.now).2
      answers := ⟨src, name, ips.map (·.1), ttl, s.now⟩ :: s.answers }
  | .replaced policy => { s with guard := s.guard.replacePolicy policy }
  | .passed time => { s with now := s.now + time }
  | .decided src dst ticks =>
    { s with guard := (s.guard.verdict src dst (s.clock ticks)).2, now := s.clock ticks 3 }

/-- A guard without pins. -/
structure Fresh (s : Guarded) : Prop where
  pinned : s.guard.pinned = .bounded maxPins
  answers : s.answers = []

end Guarded

def guardSystem : System Guarded Event := .ofFunction Guarded.Fresh fun s e => some (s.step e)

end Virtkit.Switch
