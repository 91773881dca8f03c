import Virtkit.Switch.Guard
import Virtkit.Switch.MinimalQuery

/-!
# The answers a switch gives itself

A switch answers for the special-use names, for the services on its network and for the reverse names of
its addresses, and refuses what it does not forward. A response echoes the question after a header.
-/

namespace Virtkit.Switch

open Virtkit.Common Option

/-- The largest response a switch builds. -/
def dnsUdpClassic : ℕ := 512

/-- Response codes. -/
def rcodeNxdomain : UInt8 := 3

@[inherit_doc rcodeNxdomain]
def rcodeNotimp : UInt8 := 4

@[inherit_doc rcodeNxdomain]
def rcodeRefused : UInt8 := 5

/-- Record types. -/
def typeA : ℕ := 1

@[inherit_doc typeA]
def typePtr : ℕ := 12

@[inherit_doc typeA]
def typeAaaa : ℕ := 28

def Name.text (name : Name) : String := String.ofList (name.map fun b => Char.ofNat b.toNat)

/-- A switch's network: its own address on it, and the length of its mask. -/
structure Cfg where
  gateway : Ipv4
  length : ℕ

/-- Whether an address is on the switch's network. -/
def Cfg.onLan (lan : Cfg) (ip : Ipv4) : Bool := ip &&& mask4 lan.length = lan.gateway &&& mask4 lan.length

inductive SpecialUse where
  | invalid
  | localhost
  deriving DecidableEq

def under (zone : String) (name : Name) : Bool :=
  name = ascii zone || (dot :: ascii zone).isSuffixOf name

def SpecialUse.of (name : Name) : Option SpecialUse :=
  if under "invalid" name then some .invalid
  else if under "localhost" name then some .localhost
  else none

/-- A number from 0 to 255 in canonical decimal. -/
def parseOctet (label : Bytes) : Option ℕ :=
  let value := label.foldl (fun n b => n * 10 + (b.toNat - 48)) 0
  if label.all (fun b => 48 ≤ b && b ≤ 57) && (label = [48] || label.head? ≠ some 48) && !label.isEmpty &&
      value ≤ 255 then some value
  else none

def reverseV4 (name : Name) : Option Ipv4 :=
  let zone := ascii ".in-addr.arpa"
  if zone.isSuffixOf name then
    match ((name.take (name.length - zone.length)).splitOn dot).map parseOctet with
    | [some d, some c, some b, some a] => some (BitVec.ofNat 32 (((a * 256 + b) * 256 + c) * 256 + d))
    | _ => none
  else none

/-- Add the records that fit: what is built, and how many. -/
def addRecords (rtype : ℕ) : Bytes → ℕ → List Bytes → Bytes × ℕ
  | out, ancount, [] => (out, ancount)
  | out, ancount, rdata :: rdatas =>
    if dnsUdpClassic < out.length + 12 + rdata.length then (out, ancount)
    else
      -- The owner is a pointer to the question; the class is IN, the time to live five minutes.
      addRecords rtype (out ++ [0xc0, 0x0c] ++ beBytes 2 rtype ++ [0, 1] ++ beBytes 4 300 ++
        beBytes 2 rdata.length ++ rdata) (ancount + 1) rdatas

variable (query : Bytes)

/-- An authoritative response with records of one type. -/
def dnsAnswers (qend rtype : ℕ) (rdatas : List Bytes) : Bytes :=
  let question := (query.drop 12).take (qend - 12)
  let header := fun ancount => [query.getD 0 0, query.getD 1 0, 0x84 ||| (query.getD 2 0 &&& 0x01), 0x80, 0, 1] ++
    beBytes 2 ancount ++ [0, 0, 0, 0]
  let (out, ancount) := addRecords rtype (header 0 ++ question) 0 rdatas
  header ancount ++ out.drop 12

def octets (ip : Ipv4) : Bytes := beBytes 4 ip.toNat

/-- An address for a query of addresses, else no data. -/
def dnsResponse (qend qtype : ℕ) (ip : Ipv4) : Bytes :=
  dnsAnswers query qend typeA (if qtype = typeA then [octets ip] else [])

/-- Names for a reverse query, else no data. -/
def dnsPtrResponse (qend qtype : ℕ) (names : List Name) : Bytes :=
  dnsAnswers query qend typePtr (if qtype = typePtr then names.filterMap encodeName else [])

/-- A response with a code and no answers: only a denial of the name claims authority. -/
def dnsError (qend : ℕ) (rcode : UInt8) : Bytes :=
  let aa : UInt8 := if rcode = rcodeNxdomain then 0x04 else 0
  [query.getD 0 0, query.getD 1 0, 0x80 ||| aa ||| (query.getD 2 0 &&& 0x79), 0x80 ||| rcode, 0, 1, 0, 0, 0, 0,
    0, 0] ++ (query.drop 12).take (qend - 12)

/-- The name does not exist. -/
def dnsNxdomain (qend : ℕ) : Bytes := dnsError query qend rcodeNxdomain

/-- A refusal without a question. -/
def dnsRefusedHeader : Option Bytes :=
  if query.length < 12 then none
  else some [query.getD 0 0, query.getD 1 0, 0x80 ||| (query.getD 2 0 &&& 0x79), 0x80 ||| rcodeRefused, 0, 0, 0, 0,
    0, 0, 0, 0]

/-- The code that refuses a query of another shape. -/
def nonstandardRcode : UInt8 :=
  if query[2]?.map (· &&& 0x78) = some 0 then rcodeRefused else rcodeNotimp

/-- The names of an address, in order. -/
def namesOf (hosts : Table Name Ipv4) (addr : Ipv4) : List Name :=
  ((hosts.entries.filter fun e => e.2 = addr).map (·.1)).insertionSort fun a b => ¬ b < a

def localAnswer (hosts : Table Name Ipv4) (lan : Cfg) : Option Bytes := do
  let (name, qtype, qend) ← parseQuestion query
  let special := SpecialUse.of name
  let service := hosts.lookup name
  let addr := (reverseV4 name).filter lan.onLan
  if special.isNone && service.isNone && addr.isNone then none
  else if query.getD 2 0 &&& 0x78 ≠ 0 then some (dnsError query qend rcodeNotimp)
  else
    match special with
    | some .invalid => some (dnsNxdomain query qend)
    | some .localhost =>
      some (if qtype = typeAaaa then dnsAnswers query qend typeAaaa [beBytes 16 1]
        else dnsResponse query qend qtype 0x7f000001#32)
    | none =>
      match service with
      | some ip => some (dnsResponse query qend qtype ip)
      | none => do
        let addr ← addr
        let names := namesOf hosts addr
        some (if names.isEmpty then dnsNxdomain query qend else dnsPtrResponse query qend qtype names)

/-!
## The switch's resolver

A guest's query is answered by the switch, refused, or forwarded to the host's resolvers. A source held to
an allowlist has its query rebuilt first, unless dry-run carries what it cannot check.
-/

variable (g : EgressGuard)

namespace EgressGuard

/-- Whether a source's lookups are held to an allowlist. -/
def restrictedFor (src : Ipv4) : Bool :=
  (g.nodeLayers g.policy src).any Egress.restricts || g.hub.isSome

/-- Whether what cannot be checked is carried. -/
def soft : Bool := g.dryRun && g.hub.isNone

/-- Whether the node's layers allow a source a name. -/
def nameAllowed (g : EgressGuard) (src : Ipv4) (host : String) : Bool :=
  (g.nodeLayers g.policy src).all fun l => l.allowsHost host

/-- Whether each of some layers that restricts holds a pin of an address, up to the first that does not. -/
def layersPin (src ip : Ipv4) (clock : ℕ → ℕ) : List Egress → ℕ → EgressGuard → Bool × EgressGuard
  | [], _, g => (true, g)
  | layer :: layers, k, g =>
    if !layer.restricts then layersPin src ip clock layers (k + 1) g
    else
      match g.pinnedBy layer src ⟨.v4 ip, 0⟩ (clock k) with
      | (true, g) => layersPin src ip clock layers (k + 1) g
      | (false, g) => (false, g)

/-- Whether the node's layers admit a reverse lookup of an address. -/
def reverseAllowed (src ip : Ipv4) (clock : ℕ → ℕ) : Bool × EgressGuard :=
  layersPin src ip clock (g.nodeLayers g.policy src) 0 g

/-- Whether the hub's layer admits a reverse lookup of an address. -/
def hubAllowsReverse (src ip : Ipv4) (now : ℕ) : Bool × EgressGuard :=
  match g.hub with
  | none => (true, g)
  | some hub => g.pinnedBy hub src ⟨.v4 ip, 0⟩ now

/-- Whether the node's layers, then the hub's, admit a reverse name: by the name, or by a pin of its
address. -/
def reverseAdmits (src : Ipv4) (name : String) (ip : Ipv4) (clock : ℕ → ℕ) :
    (Bool × Bool) × EgressGuard :=
  let (node, g) := if g.nameAllowed src name then (true, g) else g.reverseAllowed src ip clock
  let (hub, g) := if g.hubAllowsHost name then (true, g) else g.hubAllowsReverse src ip (clock 3)
  ((node, hub), g)

end EgressGuard

/-- What a forwarded query is to be answered for: its name, where its question ends, and the address of a
reverse name that is not allowed by name. -/
structure Forwarded where
  name : Name
  qend : ℕ
  reverseOnly : Option Ipv4

/-- What becomes of a query. -/
inductive Handled where
  /-- It is answered, or dropped. -/
  | answered (response : Option Bytes)
  /-- A message is sent upstream. -/
  | asked (message : Bytes) (question : Option Forwarded)

/-- The message sent upstream. -/
def Handled.sent : Handled → Option Bytes
  | answered _ => none
  | asked message _ => some message

/-- What a switch resolves with: its services and network, whether the hub tries rules, and what the
checks read of the clock. -/
structure Resolver where
  hosts : Table Name Ipv4
  lan : Cfg
  trial : Bool
  clock : ℕ → ℕ

/-- Decide a guest's query. -/
def EgressGuard.handleDns (r : Resolver) (client : Ipv4) (query : Bytes) :
    Handled × EgressGuard :=
  -- Shorter than a header.
  if query.length < 12 then (.answered none, g)
  else
    let restricted := g.restrictedFor client
    let parsed := parseQuestion query
    let minimal := parsed.bind fun (_, _, qend) =>
      if restricted || r.trial then minimalQuery query qend else none
    match localAnswer query r.hosts r.lan with
    | some response => (.answered (some response), g)
    | none =>
      match parsed with
      | some (name, _, qend) =>
        if restricted && minimal.isNone && !g.soft then
          (.answered (some (dnsError query qend (nonstandardRcode query))), g)
        else
          let upstreamQuery := match minimal with
            | some minimal => if restricted && !g.soft then minimal else query
            | none => query
          let nameAllowed := g.nameAllowed client name.text
          let hubAllows := g.hubAllowsHost name.text
          let reverseOnly := (reverseV4 name).filter fun _ => !(nameAllowed && hubAllows)
          let ((nameAllowed, hubAllows), g) := match reverseOnly with
            | some ip => g.reverseAdmits client name.text ip r.clock
            | none => ((nameAllowed, hubAllows), g)
          -- The hub's layer refuses what it refuses under dry-run too.
          if hubAllows && (nameAllowed || g.dryRun) then
            (.asked upstreamQuery (some ⟨name, qend, reverseOnly⟩), g)
          else (.answered (some (dnsNxdomain query qend)), g)
      | none =>
        -- Several questions are refused under any policy.
        let several := 1 < be16 (query.getD 4 0) (query.getD 5 0)
        if several || (restricted && !g.soft) then (.answered (dnsRefusedHeader query), g)
        else (.asked query none, g)

section Leaves

variable {g : EgressGuard} {r : Resolver} {client : Ipv4} {query : Bytes} {name : Name} {qtype qend : ℕ}

def Resolver.owns (r : Resolver) (name : Name) : Bool :=
  (SpecialUse.of name).isSome || (r.hosts.lookup name).isSome || ((reverseV4 name).filter r.lan.onLan).isSome

def EgressGuard.admits (r : Resolver) (client : Ipv4) (name : Name) : Bool :=
  let nameAllowed := g.nameAllowed client name.text
  let hubAllows := g.hubAllowsHost name.text
  let reverseOnly := (reverseV4 name).filter fun _ => !(nameAllowed && hubAllows)
  let ((nameAllowed, hubAllows), g) := match reverseOnly with
    | some ip => g.reverseAdmits client name.text ip r.clock
    | none => ((nameAllowed, hubAllows), g)
  hubAllows && (nameAllowed || g.dryRun)

theorem length_of_parseQuestion (h : parseQuestion query = some (name, qtype, qend)) : ¬ query.length < 12 := by
  intro hshort
  rw [parseQuestion, if_pos (.inl hshort)] at h
  cases h

theorem isSome_localAnswer (h : parseQuestion query = some (name, qtype, qend)) :
    (localAnswer query r.hosts r.lan).isSome = r.owns name := by
  rw [localAnswer, h, bind_eq_bind, bind_some, Resolver.owns]
  dsimp only
  cases hspecial : SpecialUse.of name with
  | some special =>
    rw [if_neg (by simp), isSome_some, Bool.true_or, Bool.true_or]
    cases special <;> split_ifs <;> rfl
  | none =>
    cases hservice : r.hosts.lookup name with
    | some ip =>
      rw [if_neg (by simp), isSome_some, Bool.or_true, Bool.true_or]
      split_ifs <;> rfl
    | none =>
      cases haddr : (reverseV4 name).filter r.lan.onLan with
      | some ip =>
        rw [if_neg (by simp), isSome_some, Bool.or_true]
        split_ifs <;> rfl
      | none => rfl

/-- Of a query under an allowlist whose question is read, and that is not carried unchecked, what it is
rebuilt to leaves, if its name is not the switch's own and is admitted. -/
theorem sent_of_parsed (hrestricted : g.restrictedFor client = true) (hsoft : g.soft = false)
    (hparsed : parseQuestion query = some (name, qtype, qend)) : (g.handleDns r client query).1.sent =
      if !r.owns name && g.admits r client name then minimalQuery query qend else none := by
  have howns := isSome_localAnswer (r := r) hparsed
  rw [EgressGuard.handleDns, if_neg (length_of_parseQuestion hparsed)]
  rw [hparsed, hrestricted, hsoft]
  cases hlocal : localAnswer query r.hosts r.lan with
  | some response =>
    rw [hlocal] at howns
    rw [← howns]
    rfl
  | none =>
    rw [hlocal] at howns
    rw [← howns]
    simp only [bind_some, Bool.true_or, if_true, Bool.true_and, Bool.not_false, Bool.and_true, isSome_none]
    cases hminimal : minimalQuery query qend with
    | none =>
      rw [if_pos (by rfl), ite_self]
      rfl
    | some m =>
      rw [if_neg (by simp), EgressGuard.admits]
      generalize (match (reverseV4 name).filter fun _ =>
          !(g.nameAllowed client name.text && g.hubAllowsHost name.text) with
        | some ip => g.reverseAdmits client name.text ip r.clock
        | none => ((g.nameAllowed client name.text, g.hubAllowsHost name.text), g)) = decided
      obtain ⟨⟨nameAllowed, hubAllows⟩, g'⟩ := decided
      split_ifs <;> rfl

/-- For a query without a question nothing is sent. -/
theorem sent_of_unparsed (hrestricted : g.restrictedFor client = true) (hsoft : g.soft = false)
    (hparsed : parseQuestion query = none) : (g.handleDns r client query).1.sent = none := by
  have hlocal : localAnswer query r.hosts r.lan = none := by
    rw [localAnswer, hparsed]
    rfl
  rw [EgressGuard.handleDns]
  split_ifs
  · rfl
  · dsimp only
    rw [hparsed, hlocal, hrestricted, hsoft]
    rw [if_pos (by simp)]
    rfl

/-- A rebuilt query asks the same, and is rebuilt as itself. -/
theorem rebuilt_checked {m : Bytes} (hparsed : parseQuestion query = some (name, qtype, qend))
    (hminimal : minimalQuery query qend = some m) :
    parseQuestion m = some (name, qtype, qend) ∧ minimalQuery m qend = some m := by
  have hstandard := standard_of_minimalQuery hminimal
  obtain rfl := minimalQuery_eq_some hminimal
  obtain ⟨hshape, hessence⟩ := hstandard.message
  have hquestion := congrArg Essence.question hessence
  have hcount : be16 ((essence query qend).message.getD 4 0) ((essence query qend).message.getD 5 0) = 1 := by
    change be16 0 1 = 1
    rfl
  refine ⟨parseQuestion_congr hparsed hquestion hcount, ?_⟩
  rw [hshape.minimalQuery, hessence]

/-- Under an allowlist only the checked question leaves. Of a query that dry-run does not carry, nothing
is sent upstream or what it is rebuilt to; that has the same question, its name spelled as on the wire, and
is rebuilt to itself. And of another query in which the same is checked, that is sent too if it can be
rebuilt, else nothing. -/
theorem only_checked_question_leaves {g : EgressGuard} {client : Ipv4}
    (hrestricted : g.restrictedFor client = true) (hsoft : g.soft = false) (r : Resolver) (query : Bytes) :
    (g.handleDns r client query).1.sent = none ∨
    ∃ name qtype qend m, parseQuestion query = some (name, qtype, qend) ∧
      minimalQuery query qend = some m ∧ (g.handleDns r client query).1.sent = some m ∧
      parseQuestion m = some (name, qtype, qend) ∧
      (name ≠ [] → encodeName name = some (((m.drop 12).take (qend - 4 - 12)).map asciiLower)) ∧
      minimalQuery m qend = some m ∧
      ∀ query' name' qtype' qend', parseQuestion query' = some (name', qtype', qend') →
        essence query' qend' = essence query qend →
        (g.handleDns r client query').1.sent = if (minimalQuery query' qend').isSome then some m else none := by
  cases hparsed : parseQuestion query with
  | none => exact .inl (sent_of_unparsed hrestricted hsoft hparsed)
  | some question =>
    obtain ⟨name, qtype, qend⟩ := question
    have hsent := sent_of_parsed (r := r) hrestricted hsoft hparsed
    cases hminimal : minimalQuery query qend with
    | none =>
      rw [hminimal, ite_self] at hsent
      exact .inl hsent
    | some m =>
      cases hadmits : !r.owns name && g.admits r client name with
      | false =>
        rw [hadmits] at hsent
        exact .inl hsent
      | true =>
        rw [hadmits, hminimal] at hsent
        obtain ⟨hquestion, hfixed⟩ := rebuilt_checked hparsed hminimal
        refine .inr ⟨name, qtype, qend, m, rfl, hminimal, hsent, hquestion,
          encodeName_of_parseQuestion hquestion, hfixed, fun query' name' qtype' qend' hparsed' hessence => ?_⟩
        obtain ⟨rfl, _, rfl⟩ := parseQuestion_unique hparsed hparsed' (congrArg Essence.question hessence)
        rw [sent_of_parsed hrestricted hsoft hparsed', hadmits, if_pos rfl]
        cases hminimal' : minimalQuery query' qend with
        | none => rfl
        | some m' =>
          rw [minimalQuery_eq_some hminimal', hessence, ← minimalQuery_eq_some hminimal]
          rfl

/-- A guest's query for an allowed name, with a cookie in its EDNS record. -/
def cookieQuery : Bytes :=
  [7, 9, 1, 0x10, 0, 1, 0, 0, 0, 0, 0, 1, 4] ++ ascii "Pkgs" ++ [7] ++ ascii "Example" ++ [3] ++ ascii "org" ++
    [0, 0, 1, 0, 1] ++ [0, 0, 41, 0x10, 0, 0, 0, 0x80, 0, 0, 5, 0, 10, 0, 1, 42]

/-- A switch whose job may reach one name, and no services on its network. -/
def nameGuard : EgressGuard where
  policy := .allow [] ["pkgs.example.org"]
  perSource := ∅
  gateway := 0x0a000001#32
  dryRun := false
  pinned := .bounded maxPins
  cap := none
  hub := none

/-- The query leaves without the cookie and with its size capped. -/
theorem only_checked_question_leaves_cookie :
    ∃ m, (nameGuard.handleDns ⟨∅, ⟨0x0a000001#32, 24⟩, false, id⟩ 0x0a000002#32 cookieQuery).1.sent = some m ∧
      m = [7, 9, 1, 0x10, 0, 1, 0, 0, 0, 0, 0, 1] ++ (cookieQuery.drop 12).take 22 ++
        [0, 0, 41, 4, 0xd0, 0, 0, 0x80, 0, 0, 0] ∧
      minimalQuery m 34 = some m := by
  have hsent : (nameGuard.handleDns ⟨∅, ⟨0x0a000001#32, 24⟩, false, id⟩ 0x0a000002#32 cookieQuery).1.sent =
      some ([7, 9, 1, 0x10, 0, 1, 0, 0, 0, 0, 0, 1] ++ (cookieQuery.drop 12).take 22 ++
        [0, 0, 41, 4, 0xd0, 0, 0, 0x80, 0, 0, 0]) := by decide +kernel
  have hquestion : parseQuestion cookieQuery = some (ascii "pkgs.example.org", 1, 34) := by decide +kernel
  rcases @only_checked_question_leaves nameGuard 0x0a000002#32 rfl rfl
    ⟨∅, ⟨0x0a000001#32, 24⟩, false, id⟩ cookieQuery with hnone | ⟨_, _, qend, m, hparsed, -, hm, -, -, hfixed, -⟩
  · nomatch hsent.symm.trans hnone
  · obtain ⟨-, hend⟩ := Prod.mk.inj (some.inj (hquestion.symm.trans hparsed))
    obtain ⟨-, rfl⟩ := Prod.mk.inj hend
    exact ⟨m, hm, (some.inj (hsent.symm.trans hm)).symm, hfixed⟩

/-- The same query with an answer counted in its header: what is checked of it is the same, but it is not rebuilt,
and nothing leaves. -/
theorem counted_answer_stops_query :
    parseQuestion (cookieQuery.set 7 1) = parseQuestion cookieQuery ∧
      essence (cookieQuery.set 7 1) 34 = essence cookieQuery 34 ∧
      (nameGuard.handleDns ⟨∅, ⟨0x0a000001#32, 24⟩, false, id⟩ 0x0a000002#32 cookieQuery).1.sent.isSome = true ∧
      (nameGuard.handleDns ⟨∅, ⟨0x0a000001#32, 24⟩, false, id⟩ 0x0a000002#32 (cookieQuery.set 7 1)).1.sent = none := by
  decide +kernel

end Leaves

end Virtkit.Switch
