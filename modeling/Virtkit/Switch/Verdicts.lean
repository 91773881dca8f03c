import Virtkit.Switch.Guard

/-!
# What each operation leaves of the pins

Dropping, shedding and checking only take pins away, and pinning adds one, until the later of its own
expiry and the one it had.
-/

namespace Virtkit.Switch

open Virtkit.Common Option Table List

variable {now : ℕ}

section

namespace Pins

variable {p p' p'' : Pins} {key key' : PinKey} {name name' : String} {t : ℕ}

/-- Every pin of the first is one of the second, to the same time. -/
def Sub (p p' : Pins) : Prop :=
  ∀ key name t, p.expiry key name = some t → p'.expiry key name = some t

theorem Sub.refl (p : Pins) : p.Sub p := fun _ _ _ h => h

theorem Sub.trans (h : p.Sub p') (h' : p'.Sub p'') : p.Sub p'' :=
  fun key name t ht => h' key name t (h key name t ht)

theorem lookup_of_isEmpty {names : NamePin} (h : names.entries.isEmpty = true) (name : String) :
    names.lookup name = none := by
  rw [AList.lookup_eq_none, AList.mem_keys, AList.keys, isEmpty_iff.mp h]
  exact not_mem_nil

theorem expiry_retain (p : Pins) (f : PinKey → String → ℕ → Bool) (key : PinKey) (name : String) :
    (p.retain f).expiry key name = (p.expiry key name).filter (f key name) := by
  unfold retain expiry
  rw [lookup_filterMap]
  cases p.byAddr.lookup key with
  | none => rfl
  | some names =>
    rw [bind_some, bind_some, ← lookup_retain]
    dsimp only
    split_ifs with hempty
    · rw [lookup_of_isEmpty hempty, bind_none]
    · rw [bind_some]

theorem retain_sub (p : Pins) (f : PinKey → String → ℕ → Bool) : (p.retain f).Sub p := by
  intro key name t h
  rw [expiry_retain] at h
  exact (filter_eq_some_iff.mp h).1

theorem dropThrough_sub (p : Pins) (cutoff : ℕ) : (p.dropThrough cutoff).Sub p :=
  retain_sub { p with sinceSweep := 0 } _

theorem shed_sub (p : Pins) (now : ℕ) : (p.shed now).Sub p := by
  unfold shed
  dsimp only
  split_ifs
  · exact p.dropThrough_sub now
  · split
    · exact (retain_sub _ _).trans (p.dropThrough_sub now)
    · exact p.dropThrough_sub now

theorem expiry_insert (byAddr : Table PinKey NamePin) (names : NamePin) (len since max : ℕ)
    (key key' : PinKey) (name : String) : (⟨byAddr.insert key names, len, since, max⟩ : Pins).expiry key' name =
      if key' = key then names.lookup name else (byAddr.lookup key').bind fun n => n.lookup name := by
  unfold expiry
  rw [lookup_insert_ite]
  split_ifs <;> rfl

/-- An address is held by a name whose pin has not lapsed. -/
theorem holds_spec {f : String → Bool} (h : (p.holds key now f).1 = true) :
    ∃ name t, p.expiry key name = some t ∧ now < t ∧ f name = true := by
  unfold holds at h
  cases hheld : p.byAddr.lookup key with
  | none =>
    rw [hheld] at h
    nomatch h
  | some held =>
    rw [hheld] at h
    obtain ⟨name, hname, hf⟩ := any_eq_true.mp h
    obtain ⟨t, ht⟩ := isSome_iff_exists.mp (AList.lookup_isSome.mpr (AList.mem_keys.mpr hname))
    rw [lookup_retain] at ht
    obtain ⟨ht, hlive⟩ := filter_eq_some_iff.mp ht
    refine ⟨name, t, ?_, of_decide_eq_true hlive, hf⟩
    rw [expiry, hheld, bind_some, ht]

theorem holds_sub (p : Pins) (key : PinKey) (now : ℕ) (f : String → Bool) : (p.holds key now f).2.Sub p := by
  intro key' name t h
  unfold holds at h
  cases hheld : p.byAddr.lookup key with
  | none =>
    rw [hheld] at h
    exact h
  | some held =>
    rw [hheld] at h
    dsimp only at h
    split_ifs at h with hempty
    · unfold expiry at h ⊢
      rw [lookup_erase_ite] at h
      split_ifs at h
      · nomatch h
      · exact h
    · rw [expiry_insert] at h
      split_ifs at h with hkey
      · rw [lookup_retain] at h
        rw [expiry, hkey, hheld, bind_some]
        exact (filter_eq_some_iff.mp h).1
      · exact h

theorem lookup_extend {pin : NamePin} {until_ : ℕ} (h : (NamePin.extend pin name until_).lookup name' = some t) :
    pin.lookup name' = some t ∨ (name' = name ∧ t = until_) := by
  unfold NamePin.extend at h
  rw [lookup_insert_ite] at h
  split_ifs at h with hname
  · subst hname
    cases hold : pin.lookup name' with
    | none =>
      simp only [hold] at h
      exact .inr ⟨rfl, (some.inj h).symm⟩
    | some old =>
      simp only [hold] at h
      rcases max_choice old until_ with hmax | hmax
      · exact .inl (hmax ▸ h)
      · exact .inr ⟨rfl, (some.inj (hmax ▸ h)).symm⟩
  · exact .inl h

theorem lookup_room {held : NamePin} {first : String}
    (h : (NamePin.room held name now first).lookup name' = some t) : held.lookup name' = some t := by
  have hlive : ∀ {t}, (held.retain fun _ t => now < t).lookup name' = some t → held.lookup name' = some t := by
    intro t ht
    rw [lookup_retain] at ht
    exact (filter_eq_some_iff.mp ht).1
  unfold NamePin.room at h
  dsimp only at h
  split_ifs at h
  · split at h
    · rw [lookup_erase_ite] at h
      split_ifs at h
      exact hlive h
    · exact hlive h
  · exact hlive h

theorem swept_sub (p : Pins) (now : ℕ) : (p.swept now).Sub p := by
  unfold swept
  dsimp only
  split_ifs
  · exact dropThrough_sub { p with sinceSweep := p.sinceSweep + 1 } now
  · exact Sub.refl p

theorem expiry_take {until_ : ℕ} {first : String} (h : (p.take key name until_ now first).expiry key' name' = some t) :
    p.expiry key' name' = some t ∨ (key' = key ∧ name' = name ∧ t = until_) := by
  unfold take at h
  rw [expiry_insert] at h
  split_ifs at h with hkey
  · subst hkey
    rcases lookup_extend h with h | ⟨rfl, rfl⟩
    · have h := lookup_room h
      cases hheld : p.byAddr.lookup key' with
      | none =>
        rw [hheld] at h
        nomatch h
      | some held =>
        rw [hheld] at h
        rw [expiry, hheld]
        exact .inl h
    · exact .inr ⟨rfl, rfl, rfl⟩
  · exact .inl h

/-- A pin adds its own name at most. -/
theorem expiry_pin {until_ : ℕ} {first : String} (h : (p.pin key name until_ now first).expiry key' name' = some t) :
    p.expiry key' name' = some t ∨ (key' = key ∧ name' = name ∧ t = until_) := by
  have htaken : ((p.swept now).take key name until_ now first).expiry key' name' = some t := by
    unfold pin at h
    dsimp only at h
    split_ifs at h
    · exact shed_sub _ now key' name' t h
    · exact h
  exact (expiry_take htaken).imp_left (p.swept_sub now key' name' t)

end Pins

end

/-!
## What a flow passes by

Every pin a guard holds comes from an answer its source was given, and lasts as long as that answer does.
Unless the guard is in dry-run, every pinned name is one the job's policy allows. So a flow that is
allowed passes each layer by a range it lists, or by an answer for a name it allows.
-/

namespace EgressGuard

variable {g g' g'' : EgressGuard} {layer : Egress} {src : Ipv4} {dst : SocketAddr} {now : ℕ}

/-- A guard some of whose pins went. -/
def Lapses (g g' : EgressGuard) : Prop := ∃ pins : Pins, pins.Sub g.pinned ∧ g' = { g with pinned := pins }

theorem Lapses.refl (g : EgressGuard) : Lapses g g := ⟨g.pinned, .refl _, rfl⟩

theorem Lapses.trans (h : Lapses g g') (h' : Lapses g' g'') : Lapses g g'' := by
  obtain ⟨pins, hpins, rfl⟩ := h
  obtain ⟨pins', hpins', rfl⟩ := h'
  exact ⟨pins', hpins'.trans hpins, rfl⟩

def Admits (g : EgressGuard) (layer : Egress) (src : Ipv4) (dst : SocketAddr) (now : ℕ) : Prop :=
  layer.restricts = true → (dst.port = dnsPort → dst.ip = .v4 g.gateway) ∧
    (layer.allowsIp dst.ip dst.port = true ∨ ∃ ip name t, dst.ip = .v4 ip ∧
      g.pinned.expiry (src, ip) name = some t ∧ now < t ∧ layer.allowsHost name = true)

theorem Lapses.admits (h : Lapses g g') (hadmits : g'.Admits layer src dst now) : g.Admits layer src dst now := by
  obtain ⟨pins, hpins, rfl⟩ := h
  intro hrestricts
  obtain ⟨hdns, hlisted | ⟨ip, name, t, hip, ht, hrest⟩⟩ := hadmits hrestricts
  · exact ⟨hdns, .inl hlisted⟩
  · exact ⟨hdns, .inr ⟨ip, name, t, hip, hpins _ _ _ ht, hrest⟩⟩

section

variable (g : EgressGuard) (layer : Egress) (src : Ipv4) (dst : SocketAddr) (now : ℕ)

theorem pinnedBy_spec : Lapses g (g.pinnedBy layer src dst now).2 ∧ ((g.pinnedBy layer src dst now).1 = true →
      ∃ ip name t, dst.ip = .v4 ip ∧ g.pinned.expiry (src, ip) name = some t ∧ now < t ∧
        layer.allowsHost name = true) := by
  unfold pinnedBy
  cases hip : dst.ip with
  | v6 ip => exact ⟨.refl g, nofun⟩
  | v4 ip =>
    refine ⟨⟨_, g.pinned.holds_sub (src, ip) now layer.allowsHost, rfl⟩, fun h => ?_⟩
    obtain ⟨name, t, ht, hlive, hname⟩ := Pins.holds_spec h
    exact ⟨ip, name, t, rfl, ht, hlive, hname⟩

/-- A layer allows only what it admits. -/
theorem layerAllows_spec : Lapses g (g.layerAllows layer src dst now).2 ∧
      ((g.layerAllows layer src dst now).1 = true → g.Admits layer src dst now) := by
  unfold layerAllows
  split_ifs with hopen hdns hlisted
  · refine ⟨.refl g, fun _ hrestricts => ?_⟩
    rw [hrestricts] at hopen
    nomatch hopen
  · exact ⟨.refl g, nofun⟩
  · refine ⟨.refl g, fun _ _ => ⟨fun hport => ?_, .inl hlisted⟩⟩
    simpa [hport] using hdns
  · obtain ⟨hlapses, hpinned⟩ := g.pinnedBy_spec layer src dst now
    refine ⟨hlapses, fun h _ => ⟨fun hport => ?_, .inr (hpinned h)⟩⟩
    simpa [hport] using hdns

end

/-- All layers allow only what each admits at its check. -/
theorem layersAllow_spec (src : Ipv4) (dst : SocketAddr) (clock : ℕ → ℕ) (layers : List Egress) (k : ℕ)
    (g : EgressGuard) : Lapses g (layersAllow src dst clock layers k g).2 ∧
      ((layersAllow src dst clock layers k g).1 = true →
        ∀ i layer, layers[i]? = some layer → g.Admits layer src dst (clock (k + i))) := by
  induction layers generalizing k g with
  | nil => exact ⟨.refl g, nofun⟩
  | cons first layers ih =>
    obtain ⟨hlapses, hfirst⟩ := g.layerAllows_spec first src dst (clock k)
    unfold layersAllow
    cases hallows : g.layerAllows first src dst (clock k) with
    | mk allowed g' =>
      rw [hallows] at hlapses hfirst
      cases allowed with
      | false => exact ⟨hlapses, nofun⟩
      | true =>
        obtain ⟨hlapses', hrest⟩ := ih (k + 1) g'
        refine ⟨hlapses.trans hlapses', fun h i layer hlayer => ?_⟩
        cases i with
        | zero =>
          cases hlayer
          exact hfirst rfl
        | succ i =>
          have hadmits := hrest h i layer hlayer
          rw [Nat.add_right_comm] at hadmits
          exact hlapses.admits hadmits

theorem hubAllows_spec (g : EgressGuard) (src : Ipv4) (dst : SocketAddr) (now : ℕ) :
    Lapses g (g.hubAllows src dst now).2 ∧ ((g.hubAllows src dst now).1 = true →
      ∀ hub, g.hub = some hub → g.Admits hub src dst now) := by
  unfold hubAllows
  cases hhub : g.hub with
  | none => exact ⟨.refl g, nofun⟩
  | some hub =>
    obtain ⟨hlapses, hadmits⟩ := g.layerAllows_spec hub src dst now
    refine ⟨hlapses, fun h hub' hsame => ?_⟩
    cases hsame
    exact hadmits h

/-- A decision drops pins, and denies, or what it carries the hub's layer admits, and each of the node's
does or the guard is in dry-run. -/
theorem verdict_cases (g : EgressGuard) (src : Ipv4) (dst : SocketAddr) (clock : ℕ → ℕ) :
    Lapses g (g.verdict (some src) dst clock).2 ∧ ((g.verdict (some src) dst clock).1 = .deny ∨
      (∀ hub, g.hub = some hub → g.Admits hub src dst (clock 0)) ∧
      ((g.verdict (some src) dst clock).1 = .allow ∧ (∀ i layer,
          (g.nodeLayers g.policy src)[i]? = some layer → g.Admits layer src dst (clock (i + 1))) ∨
        (g.verdict (some src) dst clock).1 = .wouldDeny ∧ g.dryRun = true)) := by
  obtain ⟨hlapses, hhub⟩ := g.hubAllows_spec src dst (clock 0)
  unfold verdict
  dsimp only
  cases hallowed : g.hubAllows src dst (clock 0) with
  | mk allowed g' =>
    rw [hallowed] at hhub hlapses
    cases allowed with
    | false => exact ⟨hlapses, .inl rfl⟩
    | true =>
      obtain ⟨pins, hpins, rfl⟩ : Lapses g g' := hlapses
      obtain ⟨hlapses', hnode⟩ := layersAllow_spec src dst clock (g.nodeLayers g.policy src) 1 { g with pinned := pins }
      have hallows : allows { g with pinned := pins } src dst clock = layersAllow src dst clock
        (g.nodeLayers g.policy src) 1 { g with pinned := pins } := rfl
      dsimp only
      rw [hallows]
      cases hresult : layersAllow src dst clock (g.nodeLayers g.policy src) 1 { g with pinned := pins } with
      | mk allowed g'' =>
        rw [hresult] at hnode hlapses'
        obtain ⟨pins', hpins', rfl⟩ : Lapses { g with pinned := pins } g'' := hlapses'
        cases allowed with
        | true =>
          refine ⟨⟨pins', hpins'.trans hpins, rfl⟩, .inr ⟨hhub rfl, .inl ⟨rfl, fun i layer hlayer => ?_⟩⟩⟩
          have hadmits := hnode rfl i layer hlayer
          rw [Nat.add_comm] at hadmits
          exact Lapses.admits ⟨pins, hpins, rfl⟩ hadmits
        | false =>
          refine ⟨⟨pins', hpins'.trans hpins, rfl⟩, ?_⟩
          cases g.dryRun with
          | true => exact .inr ⟨hhub rfl, .inr ⟨rfl, rfl⟩⟩
          | false => exact .inl rfl

theorem expiry_foldl_pin {src : Ipv4} {name : String} {until_ : ℕ} {ips : List (Ipv4 × String)}
    {pins : Pins} {key : PinKey} {name' : String} {t : ℕ}
    (h : (ips.foldl (fun pins ip => pins.pin (src, ip.1) name until_ now ip.2) pins).expiry key name' = some t) :
    pins.expiry key name' = some t ∨ (key.1 = src ∧ key.2 ∈ ips.map (·.1) ∧ name' = name ∧ t = until_) := by
  induction ips generalizing pins with
  | nil => exact .inl h
  | cons ip ips ih =>
    rcases ih h with hone | ⟨hsrc, hip, hrest⟩
    · rcases Pins.expiry_pin hone with hold | ⟨rfl, hrest⟩
      · exact .inl hold
      · exact .inr ⟨rfl, mem_cons_self, hrest⟩
    · exact .inr ⟨hsrc, mem_cons_of_mem _ hip, hrest⟩

/-- Recording an answer adds only its own pins, and unless in dry-run only those of a name the job's
policy allows. -/
theorem recordIfAllowed_spec (g : EgressGuard) (src : Ipv4) (name : String) (ips : List (Ipv4 × String))
    (ttl now : ℕ) : ∃ pins : Pins, (g.recordIfAllowed src name ips ttl now).2 = { g with pinned := pins } ∧
      ∀ key name' t, pins.expiry key name' = some t → g.pinned.expiry key name' = some t ∨
        (key.1 = src ∧ key.2 ∈ ips.map (·.1) ∧ unroutable key.2 = false ∧ name' = name ∧
          t = pinUntil now ttl ∧ (g.dryRun = false → g.policy.allowsHost name = true)) := by
  unfold recordIfAllowed
  dsimp only
  split_ifs with hhub hrefused
  · exact ⟨g.pinned, rfl, fun _ _ _ h => .inl h⟩
  · exact ⟨g.pinned, rfl, fun _ _ _ h => .inl h⟩
  · refine ⟨_, rfl, fun key name' t h => ?_⟩
    rcases expiry_foldl_pin h with hold | ⟨hsrc, hip, hname, ht⟩
    · exact .inl hold
    · obtain ⟨ip, hmem, hkey⟩ := mem_map.mp hip
      obtain ⟨hgiven, hroutable⟩ := mem_filter.mp hmem
      refine .inr ⟨hsrc, mem_map.mpr ⟨ip, hgiven, hkey⟩, ?_, hname, ht, fun hdry => ?_⟩
      · rw [← hkey]
        simpa using hroutable
      · simp only [hdry, Bool.not_false, Bool.and_true, Bool.or_eq_true, Bool.not_eq_true',
          not_or, Bool.not_eq_false] at hrefused
        exact all_eq_true.mp hrefused.1.1 g.policy (by simp [nodeLayers])

end EgressGuard

namespace Guarded

variable {s : Guarded}

/-- A guard in a run: its pins come from answers, and their names are allowed unless in dry-run. -/
structure Sound (s : Guarded) : Prop where
  answered : ∀ key name t, s.guard.pinned.expiry key name = some t → ∃ a ∈ s.answers,
    a.src = key.1 ∧ key.2 ∈ a.ips ∧ unroutable key.2 = false ∧ a.name = name ∧ t = pinUntil a.time a.ttl
  allowed : s.guard.dryRun = false → ∀ key name t, s.guard.pinned.expiry key name = some t →
    s.guard.policy.allowsHost name = true

theorem Fresh.sound (h : s.Fresh) : s.Sound := by
  have hnone : ∀ key name, s.guard.pinned.expiry key name = none := by
    intro key name
    rw [h.pinned]
    rfl
  refine ⟨fun key name t ht => ?_, fun _ key name t ht => ?_⟩
  · rw [hnone] at ht
    nomatch ht
  · rw [hnone] at ht
    nomatch ht

theorem Sound.lapses (h : s.Sound) {g : EgressGuard} (hlapses : s.guard.Lapses g) (now : ℕ) :
    Sound { s with guard := g, now := now } := by
  obtain ⟨pins, hpins, rfl⟩ := hlapses
  exact ⟨fun key name t ht => h.answered key name t (hpins key name t ht),
    fun hdry key name t ht => h.allowed hdry key name t (hpins key name t ht)⟩

/-- Every event leaves only pins of answers, for allowed names. -/
theorem Sound.step (h : s.Sound) (event : Event) : (s.step event).Sound := by
  cases event with
  | answered src name ips ttl =>
    obtain ⟨pins, hguard, hpins⟩ := s.guard.recordIfAllowed_spec src name ips ttl s.now
    unfold Guarded.step
    dsimp only
    rw [hguard]
    refine ⟨fun key name' t ht => ?_, fun hdry key name' t ht => ?_⟩
    · rcases hpins key name' t ht with hold | ⟨hsrc, hip, hroutable, hname, htime, -⟩
      · obtain ⟨a, ha, hrest⟩ := h.answered key name' t hold
        exact ⟨a, mem_cons_of_mem _ ha, hrest⟩
      · exact ⟨_, mem_cons_self, hsrc.symm, hip, hroutable, hname.symm, htime⟩
    · rcases hpins key name' t ht with hold | ⟨-, -, -, hname, -, hallowed⟩
      · exact h.allowed hdry key name' t hold
      · rw [hname]
        exact hallowed hdry
  | replaced policy =>
    refine ⟨fun key name t ht => ?_, fun _ key name t ht => ?_⟩
    · exact h.answered key name t (Pins.retain_sub _ _ key name t ht)
    · have ht : (s.guard.pinned.retain fun _ name _ => policy.allowsHost name).expiry key name = some t := ht
      rw [Pins.expiry_retain] at ht
      exact (filter_eq_some_iff.mp ht).2
  | passed time => exact h.lapses (.refl s.guard) _
  | decided src dst ticks =>
    refine h.lapses ?_ _
    cases src with
    | none => exact .refl s.guard
    | some src => exact (s.guard.verdict_cases src dst _).1

/-- What lets a flow pass a layer: nothing to restrict, or, other than DNS past the switch, a range that
the layer lists, or a pin that is held and has not lapsed, of an answer that gave its source the address for
a name that the layer allows. -/
def Passes (s : Guarded) (layer : Egress) (src ip : Ipv4) (port now : ℕ) : Prop :=
  layer.restricts = true → (port = dnsPort → ip = s.guard.gateway) ∧
    ((∃ ips names, layer = .allow ips names ∧ ∃ c ∈ ips, c.Lists ip port) ∨
      ∃ a ∈ s.answers, a.src = src ∧ ip ∈ a.ips ∧ unroutable ip = false ∧
        layer.allowsHost a.name = true ∧
        s.guard.pinned.expiry (src, ip) a.name = some (pinUntil a.time a.ttl) ∧ now < pinUntil a.time a.ttl)

theorem Sound.passes (h : s.Sound) {layer : Egress} {src ip : Ipv4} {port : ℕ}
    (hadmits : s.guard.Admits layer src ⟨.v4 ip, port⟩ now) : s.Passes layer src ip port now := by
  intro hrestricts
  obtain ⟨hdns, hby⟩ := hadmits hrestricts
  refine ⟨fun hport => IpAddr.v4.inj (hdns hport), ?_⟩
  rcases hby with hlisted | ⟨ip', name, t, hip, ht, hlive, hname⟩
  · exact .inl ((Egress.allowsIp_iff hrestricts ip port).mp hlisted)
  · obtain rfl := IpAddr.v4.inj hip
    obtain ⟨a, ha, hsrc, hgiven, hroutable, rfl, rfl⟩ := h.answered _ name t ht
    exact .inr ⟨a, ha, hsrc, hgiven, hroutable, hname, ht, hlive⟩

end Guarded

/-- A flow that is allowed passes each layer that holds its source, at the time of its check. One that is
carried in dry-run passes the hub's. And unless in dry-run every pinned name is one the job's policy
allows. -/
theorem flows_pass_every_layer {s : Guarded} (h : guardSystem.Reachable s) : (∀ src ip port ticks,
      ((s.guard.verdict (some src) ⟨.v4 ip, port⟩ (s.clock ticks)).1 = .allow →
        (∀ hub, s.guard.hub = some hub → s.Passes hub src ip port (s.clock ticks 0)) ∧
        ∀ i layer, (s.guard.nodeLayers s.guard.policy src)[i]? = some layer →
          s.Passes layer src ip port (s.clock ticks (i + 1))) ∧
      ((s.guard.verdict (some src) ⟨.v4 ip, port⟩ (s.clock ticks)).1 = .wouldDeny → s.guard.dryRun = true ∧
        ∀ hub, s.guard.hub = some hub → s.Passes hub src ip port (s.clock ticks 0))) ∧
    (s.guard.dryRun = false → ∀ src ip name t, s.guard.pinned.expiry (src, ip) name = some t →
      s.guard.policy.allowsHost name = true) := by
  have hsound : s.Sound := h.invariant (fun _ => Guarded.Fresh.sound)
    fun _ event _ hs hstep => some.inj hstep ▸ hs.step event
  refine ⟨fun src ip port ticks => ?_, fun hdry src ip => hsound.allowed hdry (src, ip)⟩
  rcases (s.guard.verdict_cases src ⟨.v4 ip, port⟩ (s.clock ticks)).2 with
    hdeny | ⟨hhub, ⟨hallow, hnode⟩ | ⟨hwould, hdry⟩⟩
  · rw [hdeny]
    exact ⟨nofun, nofun⟩
  · rw [hallow]
    exact ⟨fun _ => ⟨fun hub hh => hsound.passes (hhub hub hh),
      fun i layer hlayer => hsound.passes (hnode i layer hlayer)⟩, nofun⟩
  · rw [hwould]
    exact ⟨nofun, fun _ => ⟨hdry, fun hub hh => hsound.passes (hhub hub hh)⟩⟩

/-- A switch whose job may reach one name and one network, held by the hub to the name's domain and the
network. -/
def jobGuard : EgressGuard where
  policy := .allow [.ofAddress 0x0a010000#32 16 (by decide) (some 443)] ["pkgs.example.org"]
  perSource := ∅
  gateway := 0x0a000001#32
  dryRun := false
  pinned := .bounded maxPins
  cap := none
  hub := some (.allow [.ofAddress 0x0a000000#32 8 (by decide) none] ["example.org"])

/-- A flow to the address an answer gave is allowed, and passes by the answer. -/
theorem flows_pass_every_layer_pinned : ∃ s, guardSystem.Reachable s ∧
    (s.guard.verdict (some 0x0a000002#32) ⟨.v4 0x01010101#32, 443⟩ (s.clock fun _ => 0)).1 = .allow ∧
    s.Passes s.guard.policy 0x0a000002#32 0x01010101#32 443 s.now := by
  have hrun := @System.reachable_of_exec _ _ Guarded.Fresh (fun s e => some (s.step e))
    ⟨jobGuard, 0, []⟩ _ [.answered 0x0a000002#32 "PKGS.example.org." [(0x01010101#32, "")] 0] ⟨rfl, rfl⟩ rfl
  have hallow : ((Guarded.step ⟨jobGuard, 0, []⟩
      (.answered 0x0a000002#32 "PKGS.example.org." [(0x01010101#32, "")] 0)).guard.verdict
      (some 0x0a000002#32) ⟨.v4 0x01010101#32, 443⟩ fun _ => 0).1 = .allow := by
    decide +kernel
  exact ⟨_, hrun, hallow, (((flows_pass_every_layer hrun).1 _ _ _ fun _ => 0).1 hallow).2 0 _ rfl⟩

end Virtkit.Switch
