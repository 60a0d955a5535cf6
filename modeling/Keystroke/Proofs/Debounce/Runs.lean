import Mathlib
import Keystroke.Proofs.Debounce

/-!
# Debouncing by runs of samples

What a debouncer answers is told by the samples of one key alone, latest first. `Sample.run` is
the stretch of the latest samples that all differ from a level, and a new level is accepted once
the run that differs from the old one has lasted long enough (`DebouncePolicy.Settles`). A cell
keeps the run in two numbers, its length up to the largest byte and the tick of its first sample
(`Cell.Tracks`); both are exact as far as a policy can tell.
-/

namespace Keystroke

/-- A raw sample of one key. -/
structure Sample where
  raw : Bool
  now : Tick
  deriving DecidableEq, Repr

/-- The latest samples, as far back as they all differ from a level. -/
def Sample.run (level : Bool) (samples : List Sample) : List Sample :=
  samples.takeWhile (·.raw ≠ level)

/-- A run of samples up to `now` is long enough: it has so many samples, or so many ticks have
passed since its first one on a clock of 32 bits. -/
def DebouncePolicy.Settles (policy : DebouncePolicy) (run : List Sample) (now : Tick) : Prop :=
  match policy with
  | samples count => max count.toNat 1 ≤ run.length
  | ticks count => ∃ first, run.getLast? = some first ∧
      (count.toNat : Int) ≤ ((now.toNat : Int) - first.now.toNat) % 2 ^ 32

theorem toNat_elapsed (now since : Tick) :
    ((elapsed now since).toNat : Int) = ((now.toNat : Int) - since.toNat) % 2 ^ 32 := by
  rw [elapsed, UInt32.toNat_sub]
  have hsince := since.toNat_lt
  omega

namespace Cell

variable {policy : DebouncePolicy} {cell : Cell} {sample : Sample} {samples : List Sample}
  {level : Bool}

theorem run_cons_self : Sample.run sample.raw (sample :: samples) = [] := by
  simp [Sample.run]

theorem run_cons_of_ne (h : sample.raw ≠ level) :
    Sample.run level (sample :: samples) = sample :: Sample.run level samples := by
  simp [Sample.run, h]

/-- The cell counts the run that differs from its level and remembers when it began. -/
def Tracks (cell : Cell) (samples : List Sample) : Prop :=
  cell.change = (Sample.run cell.stable samples).getLast?.map fun first =>
    ⟨UInt8.ofNat (min (Sample.run cell.stable samples).length 255), first.now⟩

theorem tracks_new : Tracks {} [] := rfl

theorem ofNat_min_succ (n : Nat) : (if UInt8.ofNat (min n 255) < 255 then
    UInt8.ofNat (min n 255) + 1 else UInt8.ofNat (min n 255)) = UInt8.ofNat (min (n + 1) 255) := by
  apply UInt8.toNat_inj.mp
  rcases Nat.lt_or_ge n 255 with h | h
  · have hlt : UInt8.ofNat (min n 255) < 255 := by
      rw [UInt8.lt_iff_toNat_lt, UInt8.toNat_ofNat']
      change min n 255 % 2 ^ 8 < 255
      omega
    rw [if_pos hlt, UInt8.toNat_add, UInt8.toNat_ofNat', UInt8.toNat_ofNat']
    change (min n 255 % 2 ^ 8 + 1) % 2 ^ 8 = min (n + 1) 255 % 2 ^ 8
    omega
  · rw [Nat.min_eq_right h, Nat.min_eq_right (Nat.le_succ_of_le h)]
    rfl

/-- One more sample of the other level makes the run longer. -/
theorem Tracks.extend (H : cell.Tracks samples) (h : sample.raw ≠ cell.stable) :
    some (Change.extend cell.change sample.now) =
      (Sample.run cell.stable (sample :: samples)).getLast?.map fun first =>
        ⟨UInt8.ofNat (min (Sample.run cell.stable (sample :: samples)).length 255), first.now⟩ := by
  rw [H, run_cons_of_ne h]
  cases hrun : Sample.run cell.stable samples with
  | nil => rfl
  | cons latest earlier =>
    rw [List.getLast?_cons_cons, List.getLast?_cons]
    simp only [Option.map_some, Change.extend, List.length_cons, ofNat_min_succ]

/-- The two numbers of the cell tell whether the run is long enough. The count is no obstacle
although it stops at 255, because no policy asks for more. -/
theorem accepts_iff {run : List Sample} {change : Change} {now : Tick}
    (h : some change = run.getLast?.map fun first =>
      ⟨UInt8.ofNat (min run.length 255), first.now⟩) :
    policy.accepts change now = true ↔ policy.Settles run now := by
  obtain ⟨first, hfirst, hchange⟩ := Option.map_eq_some_iff.mp h.symm
  subst hchange
  cases policy with
  | samples count =>
    have hcount := count.toNat_lt
    simp only [DebouncePolicy.accepts, DebouncePolicy.Settles, decide_eq_true_eq,
      UInt8.toNat_ofNat']
    omega
  | ticks count =>
    simp only [DebouncePolicy.accepts, DebouncePolicy.Settles, decide_eq_true_eq,
      UInt32.le_iff_toNat_le, ← toNat_elapsed, Nat.cast_le]
    refine ⟨fun hle => ⟨first, hfirst, hle⟩, ?_⟩
    rintro ⟨first', hfirst', hle⟩
    rw [hfirst] at hfirst'
    cases hfirst'
    exact hle

/-- A run that is long enough, and nothing else, gives an edge. -/
theorem Tracks.answer (H : cell.Tracks samples) (policy : DebouncePolicy) (sample : Sample) :
    (sample.raw = cell.stable → (cell.sample policy sample.raw sample.now).2 = none) ∧
    (sample.raw ≠ cell.stable →
      policy.Settles (Sample.run cell.stable (sample :: samples)) sample.now →
        (cell.sample policy sample.raw sample.now).2 = some (.ofLevel sample.raw)) ∧
    (sample.raw ≠ cell.stable →
      ¬policy.Settles (Sample.run cell.stable (sample :: samples)) sample.now →
        (cell.sample policy sample.raw sample.now).2 = none) := by
  refine ⟨fun h => ?_, fun h hsettles => ?_, fun h hsettles => ?_⟩
  · rw [Cell.sample, if_pos h]
  · have haccepts := (accepts_iff (H.extend h)).mpr hsettles
    simp only [Cell.sample, if_neg h, if_pos haccepts]
  · have haccepts := fun ha => hsettles ((accepts_iff (H.extend h)).mp ha)
    simp only [Cell.sample, if_neg h, if_neg haccepts]

theorem tracks_sample (H : cell.Tracks samples) (policy : DebouncePolicy) (sample : Sample) :
    (cell.sample policy sample.raw sample.now).1.Tracks (sample :: samples) := by
  unfold Cell.sample
  split
  · next h =>
    rw [Tracks, ← h, run_cons_self]
    rfl
  · next h =>
    simp only
    split
    · -- the accepted level is that of the sample, so no run differs from it
      rw [Tracks, run_cons_self]
      rfl
    · exact H.extend h

/-- The state after the samples of a key, the latest first. -/
def after (policy : DebouncePolicy) : List Sample → Cell
  | [] => {}
  | sample :: earlier => ((after policy earlier).sample policy sample.raw sample.now).1

/-- The answers to the samples of a key, the latest first. -/
def answers (policy : DebouncePolicy) : List Sample → List (Option Edge)
  | [] => []
  | sample :: earlier =>
    ((after policy earlier).sample policy sample.raw sample.now).2 :: answers policy earlier

theorem tracks_after (policy : DebouncePolicy) (samples : List Sample) :
    (after policy samples).Tracks samples := by
  induction samples with
  | nil => exact tracks_new
  | cons sample earlier ih => exact tracks_sample ih policy sample

/-- Every edge leads to the other level, so the number of edges tells the level. -/
theorem stable_after (policy : DebouncePolicy) (samples : List Sample) :
    (after policy samples).stable =
      decide ((answers policy samples).reduceOption.length % 2 = 1) := by
  induction samples with
  | nil => rfl
  | cons sample earlier ih =>
    rw [after, answers]
    cases h : ((after policy earlier).sample policy sample.raw sample.now).2 with
    | none => rw [stable_of_sample_none h, ih, List.reduceOption_cons_of_none]
    | some edge =>
      obtain ⟨hbefore, hafter⟩ := stable_of_sample_edge h
      rw [ih] at hbefore
      rw [hafter, List.reduceOption_cons_of_some, List.length_cons,
        ← Bool.not_not (b := edge.level), ← hbefore, ← decide_not]
      exact decide_eq_decide.mpr (by omega)

/-- The accepted level is that of the last edge. -/
theorem stable_eq_level (policy : DebouncePolicy) (samples : List Sample) :
    (after policy samples).stable =
      ((answers policy samples).reduceOption.head?.map Edge.level).getD false := by
  induction samples with
  | nil => rfl
  | cons sample earlier ih =>
    rw [after, answers]
    cases h : ((after policy earlier).sample policy sample.raw sample.now).2 with
    | none => rw [stable_of_sample_none h, ih, List.reduceOption_cons_of_none]
    | some edge =>
      rw [(stable_of_sample_edge h).2, List.reduceOption_cons_of_some]
      rfl

/-- The edges alternate, and the first one is a press. -/
theorem edge_eq_ofLevel {policy : DebouncePolicy} {samples : List Sample} {n : Nat} {edge : Edge}
    (h : (answers policy samples).reduceOption.reverse[n]? = some edge) :
    edge = .ofLevel (n % 2 = 0) := by
  induction samples with
  | nil => cases h
  | cons sample earlier ih =>
    rw [answers] at h
    cases hanswer : ((after policy earlier).sample policy sample.raw sample.now).2 with
    | none =>
      rw [hanswer, List.reduceOption_cons_of_none] at h
      exact ih h
    | some latest =>
      rw [hanswer, List.reduceOption_cons_of_some, List.reverse_cons, List.getElem?_append] at h
      split at h
      · exact ih h
      · next hn =>
        -- the latest edge, whose place is the number of the earlier ones
        rw [List.getElem?_singleton] at h
        split at h
        · next hn' =>
          cases h
          rw [List.length_reverse] at hn hn'
          have hbefore := (stable_of_sample_edge hanswer).1
          rw [stable_after] at hbefore
          rw [← edge.ofLevel_level, ← Bool.not_not (b := edge.level), ← hbefore, ← decide_not]
          exact congrArg Edge.ofLevel (decide_eq_decide.mpr (by omega))
        · cases h

end Cell

namespace Debouncer

/-- What a debouncer can be asked. -/
inductive Call where
  | sample (key : Key) (raw : Bool) (now : Tick)
  | sampleAll (levels : Levels) (now : Tick)

/-- The sample that a call takes of a key. -/
def Call.sample? (key : Key) : Call → Option Sample
  | sample other raw now => if other = key then some ⟨raw, now⟩ else none
  | sampleAll levels now => some ⟨levels[key], now⟩

/-- The state after a call and the edges it answers, each at its key. -/
def serve (debouncer : Debouncer) : Call → Debouncer × Edges
  | .sample key raw now =>
    let (after, edge) := (debouncer.sample key raw now).value
    (after, Edges.none.set key edge)
  | .sampleAll levels now => (debouncer.sampleAll levels now).value

/-- The state after some calls, the latest first. -/
def after (policy : DebouncePolicy) : List Call → Debouncer
  | [] => new policy
  | call :: earlier => ((after policy earlier).serve call).1

/-- The samples of a key alone. -/
def samples (key : Key) (calls : List Call) : List Sample := calls.filterMap (·.sample? key)

/-- The answers to the samples of a key. -/
def answers (policy : DebouncePolicy) (key : Key) : List Call → List (Option Edge)
  | [] => []
  | call :: earlier =>
    match call.sample? key with
    | some _ => ((after policy earlier).serve call).2[key] :: answers policy key earlier
    | none => answers policy key earlier

/-- The edges of a key. -/
def edges (policy : DebouncePolicy) (key : Key) (calls : List Call) : List Edge :=
  (answers policy key calls).reduceOption

variable {policy : DebouncePolicy} {debouncer : Debouncer} {call : Call} {key : Key}
  {sample : Sample}

theorem policy_serve (debouncer : Debouncer) (call : Call) :
    (debouncer.serve call).1.policy = debouncer.policy := by
  cases call <;> rfl

theorem policy_after (policy : DebouncePolicy) (calls : List Call) :
    (after policy calls).policy = policy := by
  induction calls with
  | nil => rfl
  | cons call earlier ih => exact (policy_serve _ call).trans ih

/-- A call that samples a key feeds its cell. -/
theorem serve_of_sample (h : call.sample? key = some sample) :
    (debouncer.serve call).1.cells[key] =
        (debouncer.cells[key].sample debouncer.policy sample.raw sample.now).1 ∧
      (debouncer.serve call).2[key] =
        (debouncer.cells[key].sample debouncer.policy sample.raw sample.now).2 := by
  cases call with
  | sample other raw now =>
    simp only [Call.sample?, Option.ite_none_right_eq_some] at h
    obtain ⟨rfl, h⟩ := h
    cases h
    simp only [serve, Debouncer.sample, Slots.getElem_set_self, and_self]
  | sampleAll levels now =>
    cases h
    simp only [serve, sampleAll, Slots.getElem_map, Slots.getElem_ofFn, and_self]

/-- A call that does not sample a key does not concern it. -/
theorem serve_of_no_sample (h : call.sample? key = none) :
    (debouncer.serve call).1.cells[key] = debouncer.cells[key] ∧
      (debouncer.serve call).2[key] = none := by
  cases call with
  | sample other raw now =>
    have hne : other ≠ key := by
      intro he
      rw [Call.sample?, if_pos he] at h
      cases h
    simp only [serve, Debouncer.sample, Slots.getElem_set_ne _ hne, Edges.none, Slots.getElem_fill,
      and_self]
  | sampleAll levels now => cases h

/-- The cell of a key and the answers to its samples come from its samples alone. -/
theorem cell_and_answers (policy : DebouncePolicy) (key : Key) (calls : List Call) :
    (after policy calls).cells[key] = Cell.after policy (samples key calls) ∧
      answers policy key calls = Cell.answers policy (samples key calls) := by
  induction calls with
  | nil => exact ⟨Slots.getElem_fill .., rfl⟩
  | cons call earlier ih =>
    obtain ⟨hcell, hanswers⟩ := ih
    rw [after, answers, samples]
    cases h : call.sample? key with
    | none =>
      rw [List.filterMap_cons_none h, (serve_of_no_sample h).1]
      exact ⟨hcell, hanswers⟩
    | some sample =>
      obtain ⟨hserved, hedge⟩ := @serve_of_sample (after policy earlier) call key sample h
      rw [hcell, policy_after] at hserved hedge
      rw [List.filterMap_cons_some h, Cell.after, Cell.answers, hserved]
      exact ⟨rfl, congrArg₂ List.cons hedge hanswers⟩

theorem samples_each (levels : Levels) (now : Tick) (key : Key) {keys : List Key}
    (hn : keys.Nodup) (hkey : key ∈ keys) :
    samples key (keys.map fun other => .sample other levels[other] now) =
      [⟨levels[key], now⟩] := by
  obtain ⟨before, others, rfl⟩ := List.append_of_mem hkey
  rw [List.nodup_middle, List.nodup_cons] at hn
  have hnone : ∀ keys : List Key, key ∉ keys →
      samples key (keys.map fun other => .sample other levels[other] now) = [] := by
    intro keys hnot
    rw [samples, List.filterMap_map, List.filterMap_eq_nil_iff]
    intro other hother
    refine if_neg fun he : other = key => hnot ?_
    rwa [← he]
  have hself : Call.sample? key (.sample key levels[key] now) = some ⟨levels[key], now⟩ := if_pos rfl
  have hbefore := hnone before fun hm => hn.1 (List.mem_append_left _ hm)
  have hafter := hnone others fun hm => hn.1 (List.mem_append_right _ hm)
  rw [samples] at hbefore hafter ⊢
  rw [List.map_append, List.map_cons, List.filterMap_append, List.filterMap_cons_some hself,
    hbefore, hafter, List.nil_append]

theorem ext_cells {debouncer other : Debouncer} (hp : debouncer.policy = other.policy)
    (hc : ∀ key : Key, debouncer.cells[key] = other.cells[key]) : debouncer = other := by
  obtain ⟨policy, cells⟩ := debouncer
  obtain ⟨policy', cells'⟩ := other
  obtain rfl : policy = policy' := hp
  congr 1
  ext key
  exact hc key

/-- The keys of one call are sampled as if they were sampled one after the other. -/
theorem after_sampleAll (policy : DebouncePolicy) (levels : Levels) (now : Tick)
    (earlier : List Call) (key : Key) :
    let each := (Key.all.map fun key => Call.sample key levels[key] now).reverse ++ earlier
    after policy (.sampleAll levels now :: earlier) = after policy each ∧
      answers policy key (.sampleAll levels now :: earlier) = answers policy key each := by
  intro each
  have hsame : ∀ key, samples key (.sampleAll levels now :: earlier) = samples key each := by
    intro key
    have hn : Key.all.reverse.Nodup := List.nodup_reverse.mpr Key.nodup_all
    have heach := samples_each levels now key hn (List.mem_reverse.mpr (Key.mem_all key))
    rw [samples, List.map_reverse] at heach
    have hall : Call.sample? key (.sampleAll levels now) = some ⟨levels[key], now⟩ := rfl
    rw [samples, samples, List.filterMap_append, heach, List.filterMap_cons_some hall,
      List.singleton_append]
  refine ⟨ext_cells ?_ fun key => ?_, ?_⟩
  · rw [policy_after, policy_after]
  · rw [(cell_and_answers policy key _).1, (cell_and_answers policy key _).1, hsame key]
  · rw [(cell_and_answers policy key _).2, (cell_and_answers policy key _).2, hsame key]

/-- Debouncing does what its policy says, key by key. Before any sample a key is up. A call that
takes no sample of a key does not concern it. A sample of the accepted level gives no edge; any
other sample ends a run of samples that all differ from the accepted level, and it gives the edge
to the new level, which is then accepted, exactly if that run is long enough. A call for all keys
comes to one call for each. So the answers depend on the samples of the key alone, the edges
alternate and begin with a press, and the accepted level is that of the last edge. -/
theorem debounces_by_runs (policy : DebouncePolicy) (key : Key) :
    (after policy []).isPressed key = false ∧
    (∀ (earlier : List Call) (call : Call),
      let stable := (after policy earlier).isPressed key
      let edge := ((after policy earlier).serve call).2[key]
      let next := (after policy (call :: earlier)).isPressed key
      (call.sample? key = none → edge = none ∧ next = stable) ∧
      ∀ sample, call.sample? key = some sample →
        let run := Sample.run stable (sample :: samples key earlier)
        (sample.raw = stable → edge = none ∧ next = stable) ∧
        (sample.raw ≠ stable → policy.Settles run sample.now →
          edge = some (.ofLevel sample.raw) ∧ next = sample.raw) ∧
        (sample.raw ≠ stable → ¬policy.Settles run sample.now → edge = none ∧ next = stable)) ∧
    (∀ (earlier : List Call) (levels : Levels) (now : Tick),
      let each := (Key.all.map fun key => Call.sample key levels[key] now).reverse ++ earlier
      after policy (.sampleAll levels now :: earlier) = after policy each ∧
        answers policy key (.sampleAll levels now :: earlier) = answers policy key each) ∧
    (∀ calls others : List Call, samples key calls = samples key others →
      answers policy key calls = answers policy key others ∧
        (after policy calls).isPressed key = (after policy others).isPressed key) ∧
    ∀ calls : List Call,
      (∀ (n : Nat) (edge : Edge), (edges policy key calls).reverse[n]? = some edge →
        edge = .ofLevel (n % 2 = 0)) ∧
      (after policy calls).isPressed key =
        ((edges policy key calls).head?.map Edge.level).getD false := by
  have hall := cell_and_answers policy key
  refine ⟨?_, fun earlier call => ⟨fun h => ?_, fun sample h => ?_⟩,
    fun earlier levels now => after_sampleAll policy levels now earlier key,
    fun calls others h => ?_, fun calls => ⟨fun n edge h => ?_, ?_⟩⟩
  · rw [isPressed, (hall []).1]
    rfl
  · obtain ⟨hcell, hedge⟩ := @serve_of_no_sample (after policy earlier) call key h
    exact ⟨hedge, congrArg Cell.stable hcell⟩
  · obtain ⟨hserved, hedge⟩ := @serve_of_sample (after policy earlier) call key sample h
    rw [(hall earlier).1, policy_after] at hserved hedge
    have htracks := Cell.tracks_after policy (samples key earlier)
    obtain ⟨hsame, hlong, hshort⟩ := htracks.answer policy sample
    simp only [isPressed, after, hserved, hedge, (hall earlier).1]
    refine ⟨fun hs => ?_, fun hs hr => ?_, fun hs hr => ?_⟩
    · exact ⟨hsame hs, Cell.stable_of_sample_none (hsame hs)⟩
    · refine ⟨hlong hs hr, ?_⟩
      rw [(Cell.stable_of_sample_edge (hlong hs hr)).2, Edge.level_ofLevel]
    · exact ⟨hshort hs hr, Cell.stable_of_sample_none (hshort hs hr)⟩
  · rw [isPressed, isPressed, (hall calls).1, (hall calls).2, (hall others).1, (hall others).2, h]
    exact ⟨rfl, rfl⟩
  · rw [edges, (hall calls).2] at h
    exact Cell.edge_eq_ofLevel h
  · rw [isPressed, edges, (hall calls).1, (hall calls).2]
    exact Cell.stable_eq_level policy _

/-- A contact bounces once and stays closed over the end of the clock, while another key chatters. -/
theorem debounces_by_runs_wrap :
    let earlier : List Call :=
      [.sample 5 true 1, .sample 3 true 4294967294, .sample 3 false 4294967293,
        .sample 3 true 4294967290]
    let alone : List Call :=
      [.sample 3 true 4294967294, .sample 3 false 4294967293, .sample 3 true 4294967290]
    let call : Call := .sampleAll (Slots.fill true) 2
    (call.sample? 3 = some ⟨true, 2⟩ ∧
      true ≠ (after (.ticks 4) earlier).isPressed 3 ∧
      DebouncePolicy.Settles (.ticks 4)
        (Sample.run ((after (.ticks 4) earlier).isPressed 3) (⟨true, 2⟩ :: samples 3 earlier)) 2 ∧
      ((after (.ticks 4) earlier).serve call).2[(3 : Key)] = some .pressed ∧
      (after (.ticks 4) (call :: earlier)).isPressed 3 = true) ∧
    (samples 3 earlier = samples 3 alone ∧
      answers (.ticks 4) 3 earlier = answers (.ticks 4) 3 alone) ∧
    (edges (.ticks 4) 3 (call :: earlier)).reverse[0]? = some .pressed ∧
      Edge.pressed = .ofLevel (0 % 2 = 0) := by
  intro earlier alone call
  have hsample : call.sample? 3 = some ⟨true, 2⟩ := by decide +kernel
  have hdiffers : true ≠ (after (.ticks 4) earlier).isPressed 3 := by decide +kernel
  have hsettles : DebouncePolicy.Settles (.ticks 4)
      (Sample.run ((after (.ticks 4) earlier).isPressed 3) (⟨true, 2⟩ :: samples 3 earlier)) 2 :=
    ⟨⟨true, 4294967294⟩, by decide +kernel, by decide +kernel⟩
  have hsame : samples 3 earlier = samples 3 alone := by decide +kernel
  have hedge : (edges (.ticks 4) 3 (call :: earlier)).reverse[0]? = some .pressed := by
    decide +kernel
  obtain ⟨-, hcalls, -, halone, halternate⟩ := debounces_by_runs (.ticks 4) 3
  obtain ⟨-, hlong, -⟩ := (hcalls earlier call).2 ⟨true, 2⟩ hsample
  refine ⟨⟨hsample, hdiffers, hsettles, hlong hdiffers hsettles⟩, ⟨hsame, ?_⟩, hedge, ?_⟩
  · exact (halone earlier alone hsame).1
  · exact (halternate (call :: earlier)).1 0 .pressed hedge

end Debouncer

end Keystroke
