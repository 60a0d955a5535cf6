import Keystroke.Proofs.Engine.Switch
import Keystroke.Proofs.Keymap.Audit

/-!
# Everything in effect was authored

A look-up answers with an entry of its key on some layer of the config in use, and what it answers
with goes into the latch or the phase of that key and nowhere else. A switch to another config
clears both. So in every state what a key has in effect comes from its entries in the config in use
(`KeyState.Authored`), and the layers that are held or toggled are targets of such entries. What an
accepted keymap rules out in its entries never takes effect.
-/

namespace Keystroke

/-- The codes that an action can come out with. -/
def BasicAction.sendable : BasicAction → List KeyCode
  | combined _ normal joint => [normal, joint]
  | action => action.codes

theorem BasicAction.ComesOutAs.codes_subset {part latched : BasicAction}
    (h : part.ComesOutAs latched) : latched.codes ⊆ part.sendable := by
  cases part with
  | combined other normal joint =>
    rcases h with rfl | rfl <;> simp [codes, sendable]
  | _ =>
    obtain rfl := h
    exact List.Subset.refl _

theorem BasicAction.ComesOutAs.eq_layerHold {part : BasicAction} {layer : Layer}
    (h : part.ComesOutAs (.layerHold layer)) : part = .layerHold layer := by
  cases part with
  | combined => rcases h with h | h <;> cases h
  | _ => exact h.symm

/-- A look-up finds an entry of its key on some layer. -/
theorem Keymap.exists_lookup_of_resolve {keymap : Keymap} {config : Config} {layers : LayerStack}
    {key : Key} {action : Action} (h : keymap.resolve config layers key = action) :
    ∃ layer, keymap.lookup config layer key = action := by
  rw [resolve] at h
  cases hfound : (layers.order.map (keymap.lookup config · key)).find? (!·.isTransparent) with
  | some found =>
    rw [hfound] at h
    obtain ⟨layer, -, hlookup⟩ := List.mem_map.mp (List.mem_of_find?_eq_some hfound)
    exact ⟨layer, hlookup.trans h⟩
  | none =>
    -- the base layer is transparent too, and that is what the look-up answers
    rw [hfound] at h
    have hbase := List.find?_eq_none.mp hfound (keymap.lookup config Layer.base key)
      (List.mem_map_of_mem (by simp [LayerStack.order]))
    simp only [Action.isTransparent, Bool.not_eq_true', decide_eq_false_iff_not, not_not] at hbase
    exact ⟨Layer.base, hbase.trans h⟩

namespace KeyState

/-- What a key has in effect comes from its entries: a latched action is what an entry or a half of
one has come out as, and the actions of its phase are the halves of an entry. -/
structure Authored (s : KeyState) (entries : Layer → Action) : Prop where
  latch : ∀ latched, s.latch = some latched →
    ∃ layer, ∃ part ∈ (entries layer).parts, part.ComesOutAs latched
  pending : ∀ since tap hold, s.phase = .pending since tap hold →
    ∃ layer, entries layer = .tapHold tap hold
  tapped : ∀ tap, s.phase = .tapped tap → ∃ layer hold, entries layer = .tapHold tap hold
  held : ∀ hold, s.phase = .held hold → ∃ layer tap, entries layer = .tapHold tap hold

variable {s s' : KeyState} {key : Key} {deed : Deed} {entries : Layer → Action}

theorem authored_of_idle (hl : s.latch = none) (h : s.phase = .idle) : s.Authored entries :=
  ⟨by simp [hl], by simp [h], by simp [h], by simp [h]⟩

theorem authored_of_tapped {tap hold latched : BasicAction} {layer : Layer}
    (h : s.phase = .tapped tap) (hl : s.latch = some latched)
    (hentry : entries layer = .tapHold tap hold) (hout : tap.ComesOutAs latched) :
    s.Authored entries := by
  refine ⟨fun other he => ?_, by simp [h], fun other he => ?_, by simp [h]⟩
  · obtain rfl := Option.some.inj (hl.symm.trans he)
    exact ⟨layer, tap, by simp [hentry, Action.parts], hout⟩
  · obtain rfl := TapHold.Phase.tapped.inj (h.symm.trans he)
    exact ⟨layer, hold, hentry⟩

theorem authored_of_held {tap hold latched : BasicAction} {layer : Layer}
    (h : s.phase = .held hold) (hl : s.latch = some latched)
    (hentry : entries layer = .tapHold tap hold) (hout : hold.ComesOutAs latched) :
    s.Authored entries := by
  refine ⟨fun other he => ?_, by simp [h], by simp [h], fun other he => ?_⟩
  · obtain rfl := Option.some.inj (hl.symm.trans he)
    exact ⟨layer, hold, by simp [hentry, Action.parts], hout⟩
  · obtain rfl := TapHold.Phase.held.inj (h.symm.trans he)
    exact ⟨layer, tap, hentry⟩

theorem Authored.setPending {since : Tick} {tap hold : BasicAction} {layer : Layer}
    (H : s.Authored entries) (hl : s'.latch = s.latch) (h : s'.phase = .pending since tap hold)
    (hentry : entries layer = .tapHold tap hold) : s'.Authored entries := by
  refine ⟨by simpa only [hl] using H.latch, fun since' tap' hold' he => ?_, by simp [h],
    by simp [h]⟩
  obtain ⟨-, rfl, rfl⟩ := TapHold.Phase.pending.inj (h.symm.trans he)
  exact ⟨layer, hentry⟩

theorem Authored.setLatch {action latched : BasicAction} {layer : Layer} (H : s.Authored entries)
    (h : s'.phase = s.phase) (hl : s'.latch = some latched)
    (hentry : entries layer = .basic action) (hout : action.ComesOutAs latched) :
    s'.Authored entries := by
  refine ⟨fun other he => ?_, by simpa only [h] using H.pending, by simpa only [h] using H.tapped,
    by simpa only [h] using H.held⟩
  obtain rfl := Option.some.inj (hl.symm.trans he)
  exact ⟨layer, action, by simp [hentry, Action.parts], hout⟩

theorem Authored.clearLatch (H : s.Authored entries) (h : s'.phase = s.phase)
    (hl : s'.latch = none) : s'.Authored entries :=
  ⟨by simp [hl], by simpa only [h] using H.pending, by simpa only [h] using H.tapped,
    by simpa only [h] using H.held⟩

theorem Authored.step (H : s.Authored entries) (h : KeyStep key deed s s')
    (hstart : ∀ tap hold now, deed = .start key tap hold now →
      ∃ layer, entries layer = .tapHold tap hold)
    (hpress : ∀ action, deed = .press key action → ∃ layer, entries layer = .basic action) :
    s'.Authored entries := by
  cases h with
  | keep => exact H
  | switch | endTap | endHold => exact authored_of_idle rfl rfl
  | start =>
    obtain ⟨layer, hentry⟩ := hstart _ _ _ rfl
    exact H.setPending rfl rfl hentry
  | press hout =>
    obtain ⟨layer, hentry⟩ := hpress _ rfl
    exact H.setLatch rfl rfl hentry hout
  | tap hphase hout =>
    obtain ⟨layer, hentry⟩ := H.pending _ _ _ hphase
    exact authored_of_tapped rfl rfl hentry hout
  | hold hphase hout =>
    obtain ⟨layer, hentry⟩ := H.pending _ _ _ hphase
    exact authored_of_held rfl rfl hentry hout
  | release => exact H.clearLatch rfl rfl

end KeyState

namespace Engine

/-- The entry of a key on a layer of the config in use. -/
def entry (engine : Engine) (key : Key) (layer : Layer) : Action :=
  engine.keymap.lookup engine.config layer key

/-- What is in effect comes from the entries of the config in use. -/
structure Authored (engine : Engine) : Prop where
  keys : ∀ key, (engine.keyState key).Authored (engine.entry key)
  toggles : ∀ layer : Layer, engine.resolver.toggled[layer] = true →
    ∃ key other, .layerToggle layer ∈ (engine.entry key other).parts

variable {engine : Engine} {keymap : Keymap} {settings : Settings} {key : Key} {deed : Deed}
  {layer : Layer} {action : BasicAction}

/-! ## Moves -/

theorem entry_carryOut (h : ∀ config, deed ≠ .switch config) (key : Key) :
    (engine.carryOut deed).entry key = engine.entry key := by
  funext layer
  rw [entry, keymap_carryOut, config_carryOut h, entry]

/-- An action that is applied for a key is one of its entries or a half of one. -/
theorem Authored.applied (H : engine.Authored) (h : engine.Due deed)
    (happlied : deed.applied? = some (key, action)) :
    ∃ layer, action ∈ (engine.entry key layer).parts := by
  cases deed with
  | press other applied =>
    cases happlied
    obtain ⟨layer, hentry⟩ := Keymap.exists_lookup_of_resolve h
    exact ⟨layer, by simp [entry, hentry, Action.parts]⟩
  | tap other applied =>
    cases happlied
    obtain ⟨since, hold, hphase⟩ := h
    obtain ⟨layer, hentry⟩ := (H.keys key).pending _ _ _ hphase
    exact ⟨layer, by simp [hentry, Action.parts]⟩
  | hold other applied =>
    cases happlied
    obtain ⟨since, tap, hphase⟩ := h
    obtain ⟨layer, hentry⟩ := (H.keys key).pending _ _ _ hphase
    exact ⟨layer, by simp [hentry, Action.parts]⟩
  | _ => cases happlied

/-- Only the application of a toggle turns a layer on. -/
theorem toggled_carryOut (h : (engine.carryOut deed).resolver.toggled[layer] = true) :
    engine.resolver.toggled[layer] = true ∨
      ∃ key, deed.applied? = some (key, .layerToggle layer) := by
  cases deed with
  | wait | stay | start => exact .inl h
  | switch config =>
    simp [carryOut, Resolver.reset, Resolver.new] at h
  | press key action | tap key action | hold key action =>
    simp only [carryOut, Resolver.press_toggled] at h
    by_cases ha : action = .layerToggle layer
    · exact .inr ⟨key, by rw [ha]; rfl⟩
    · rw [decide_eq_false ha, Bool.xor_false] at h
      exact .inl h
  | endTap key | endHold key | release key =>
    simp only [carryOut, Resolver.release_toggled] at h
    exact .inl h

theorem authored_switch (engine : Engine) (config : Config) :
    (engine.carryOut (.switch config)).Authored := by
  have hfresh := fresh_switch engine config
  refine ⟨fun key => KeyState.authored_of_idle (hfresh.latched key) (hfresh.phases key), ?_⟩
  intro layer ht
  rw [hfresh.toggled layer] at ht
  cases ht

theorem Authored.carryOut (H : engine.Authored) (h : engine.Due deed)
    (hs : ∀ config, deed ≠ .switch config) : (engine.carryOut deed).Authored := by
  refine ⟨fun key => ?_, fun layer ht => ?_⟩
  · rw [entry_carryOut hs]
    refine (H.keys key).step (keyStep_carryOut h key) (fun tap hold now he => ?_) fun action he => ?_
    · subst he
      exact Keymap.exists_lookup_of_resolve h
    · subst he
      exact Keymap.exists_lookup_of_resolve h
  · simp only [entry_carryOut hs]
    rcases toggled_carryOut ht with ht | ⟨key, happlied⟩
    · exact H.toggles layer ht
    · exact ⟨key, H.applied h happlied⟩

theorem Authored.make (H : engine.Authored) (move : Move) : (engine.make move).value.Authored := by
  have hdue := due_deed engine move
  rw [make_value]
  generalize engine.deed move = deed at hdue
  by_cases hs : ∃ config, deed = .switch config
  · obtain ⟨config, rfl⟩ := hs
    exact authored_switch engine config
  · exact H.carryOut hdue fun config he => hs ⟨config, he⟩

/-! ## Runs -/

theorem authored_run (h : Engine.new keymap settings = .ok engine) (inputs : List Input) :
    (engine.run inputs).Authored := by
  obtain ⟨config, rfl⟩ := new_eq_ok h
  refine run_induction (P := Authored) (fun _ _ H => ⟨H.keys, H.toggles⟩)
    (fun engine input H => ?_) (fun _ move H => H.make move) (fun _ H => ⟨H.keys, H.toggles⟩)
    ⟨fun key => KeyState.authored_of_idle ?_ ?_, fun layer ht => ?_⟩ inputs
  · cases input with
    | edges | select => exact H
    | levels levels now => exact ⟨H.keys, H.toggles⟩
  · exact Slots.getElem_fill ..
  · exact Slots.getElem_fill ..
  · simp [Resolver.new] at ht

/-- A layer that is held is the target of an entry. -/
theorem Authored.holds (H : engine.Authored) (hcounted : engine.resolver.Counted)
    (hpos : 0 < engine.resolver.holds[layer]) :
    ∃ key other, .layerHold layer ∈ (engine.entry key other).parts := by
  rw [hcounted layer] at hpos
  obtain ⟨key, -, hlatched⟩ := List.countP_pos_iff.mp hpos
  obtain ⟨other, part, hpart, hout⟩ := (H.keys key).latch _ (of_decide_eq_true hlatched)
  exact ⟨key, other, hout.eq_layerHold ▸ hpart⟩

/-- Everything that is in effect was authored for its key in the config in use. In every state of a
run what is latched for a key is what an entry of the key on some layer, or a half of one, has come
out as, and the actions that its phase carries are the halves of one entry. So a report has codes
of entries alone. If the keymap is accepted, the base layer is never held nor toggled and no key
pends with two transparent halves. -/
theorem everything_in_effect_was_authored (keymap : Keymap) (settings : Settings) (engine : Engine)
    (inputs : List Input) (h : Engine.new keymap settings = .ok engine) :
    let reached := engine.run inputs
    (∀ key : Key,
      (∀ latched, reached.resolver.latched[key] = some latched →
        ∃ layer, ∃ part ∈ (keymap.lookup reached.config layer key).parts,
          part.ComesOutAs latched) ∧
      (∀ since tap hold, reached.tapHold.phases[key] = .pending since tap hold →
        ∃ layer, keymap.lookup reached.config layer key = .tapHold tap hold) ∧
      (∀ tap, reached.tapHold.phases[key] = .tapped tap →
        ∃ layer hold, keymap.lookup reached.config layer key = .tapHold tap hold) ∧
      ∀ hold, reached.tapHold.phases[key] = .held hold →
        ∃ layer tap, keymap.lookup reached.config layer key = .tapHold tap hold) ∧
    (∀ input after cycle, (reached.feed input).value = (after, some cycle) →
      ∀ code ∈ cycle.report.codes, ∃ (key : Key) (layer : Layer),
        ∃ part ∈ (keymap.lookup after.config layer key).parts, code ∈ part.sendable) ∧
    (keymap.validate.value = .ok () →
      reached.resolver.holds[Layer.base] = 0 ∧ reached.resolver.toggled[Layer.base] = false ∧
        ∀ (key : Key) (since : Tick), reached.tapHold.phases[key] ≠ .pending since .noOp .noOp) := by
  have hentry : ∀ inputs key layer, (engine.run inputs).entry key layer =
      keymap.lookup (engine.run inputs).config layer key := by
    intro inputs key layer
    rw [entry, keymap_run h inputs]
  intro reached
  have H : reached.Authored := authored_run h inputs
  refine ⟨fun key => ?_, fun input after cycle hfeed code hm => ?_, fun hvalid => ⟨?_, ?_, ?_⟩⟩
  · have hkey := H.keys key
    rw [funext (hentry inputs key)] at hkey
    exact ⟨hkey.latch, hkey.pending, hkey.tapped, hkey.held⟩
  · have hafter := authored_run h (inputs ++ [input])
    have hcycle : (reached.feed input).value.2 = some cycle := congrArg Prod.snd hfeed
    have hstate : engine.run (inputs ++ [input]) = after := by
      rw [run_concat]
      exact congrArg Prod.fst hfeed
    obtain ⟨key, latched, hlatched, hcode⟩ := (mem_codes_feed hcycle).mp hm
    rw [hfeed] at hlatched
    have hlatch := (hafter.keys key).latch latched
    rw [hstate] at hlatch
    obtain ⟨layer, part, hpart, hout⟩ := hlatch hlatched
    rw [← hstate, hentry, hstate] at hpart
    exact ⟨key, layer, part, hpart, hout.codes_subset hcode⟩
  · by_contra hne
    obtain ⟨key, layer, hpart⟩ := H.holds (reached_run h inputs).counted (Nat.pos_of_ne_zero hne)
    rw [hentry] at hpart
    exact Keymap.layer?_ne_base hvalid hpart rfl
  · by_contra hne
    obtain ⟨key, layer, hpart⟩ := H.toggles Layer.base (Bool.of_not_eq_false hne)
    rw [hentry] at hpart
    exact Keymap.layer?_ne_base hvalid hpart rfl
  · intro key since hphase
    obtain ⟨layer, hpair⟩ := (H.keys key).pending _ _ _ hphase
    rw [hentry] at hpair
    exact Keymap.lookup_ne_empty_pair hvalid hpair

/-- A tap-hold key with a combined tap is let go while the other key of the tap is down. -/
theorem everything_in_effect_was_authored_combined :
    let tap : BasicAction := .combined 5 .a .b
    let keymap := (((Keymap.empty.set 0 Layer.base 3 (.tapHold tap (.layerHold 1))).set 0
      Layer.base 5 (.emit .c)).set 0 1 5 (.basic (.layerToggle 2))).set 1 Layer.base 3 (.emit .d)
    let inputs : List Input := [.edges (Edges.none.set 5 (some .pressed)) 0,
      .edges (Edges.none.set 3 (some .pressed)) 1]
    let released : Input := .edges (Edges.none.set 3 (some .released)) 2
    ∃ engine after cycle, Engine.new keymap {} = .ok engine ∧ keymap.validate.value = .ok () ∧
      (engine.run inputs).tapHold.phases[(3 : Key)] = .pending 1 tap (.layerHold 1) ∧
      (∃ layer, keymap.lookup (engine.run inputs).config layer 3 = .tapHold tap (.layerHold 1)) ∧
      ((engine.run inputs).feed released).value = (after, some cycle) ∧
      after.resolver.latched[(3 : Key)] = some (.emit .b) ∧
      (∃ layer, ∃ part ∈ (keymap.lookup after.config layer 3).parts,
        part.ComesOutAs (.emit .b)) ∧
      .b ∈ cycle.report.codes ∧
      (∃ (key : Key) (layer : Layer), ∃ part ∈ (keymap.lookup after.config layer key).parts,
        .b ∈ part.sendable) ∧
      after.resolver.holds[Layer.base] = 0 ∧ after.resolver.toggled[Layer.base] = false := by
  intro tap keymap inputs released
  obtain ⟨engine, hnew⟩ : ∃ engine, Engine.new keymap {} = .ok engine := ⟨_, rfl⟩
  have hvalid : keymap.validate.value = .ok () :=
    Keymap.validate_eq_ok_iff.mpr (by decide +kernel)
  have hphase : (engine.run inputs).tapHold.phases[(3 : Key)] = .pending 1 tap (.layerHold 1) := by
    cases hnew
    decide +kernel
  have hafter : (engine.run (inputs ++ [released])).resolver.latched[(3 : Key)] =
      some (.emit .b) := by
    cases hnew
    decide +kernel
  obtain ⟨cycle, hfeed⟩ : ∃ cycle, ((engine.run inputs).feed released).value =
      (engine.run (inputs ++ [released]), some cycle) := ⟨_, by rw [run_concat]; rfl⟩
  have hcode : .b ∈ cycle.report.codes :=
    (mem_codes_feed (congrArg Prod.snd hfeed)).mpr ⟨3, .emit .b, by rw [hfeed, hafter], by decide⟩
  obtain ⟨hkeys, hreport, -⟩ := everything_in_effect_was_authored keymap {} engine inputs hnew
  obtain ⟨hkeys', -, haccepted⟩ :=
    everything_in_effect_was_authored keymap {} engine (inputs ++ [released]) hnew
  obtain ⟨hholds, htoggled, -⟩ := haccepted hvalid
  exact ⟨engine, _, cycle, hnew, hvalid, hphase, (hkeys 3).2.1 _ _ _ hphase, hfeed, hafter,
    (hkeys' 3).1 _ hafter, hcode, hreport released _ cycle hfeed .b hcode, hholds, htoggled⟩

end Engine

end Keystroke
