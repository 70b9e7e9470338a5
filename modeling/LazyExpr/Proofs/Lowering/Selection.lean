import LazyExpr.Proofs.Lowering.Correctness
import LazyExpr.Proofs.Lowering.Discipline
import LazyExpr.Proofs.Machine.Retelling

namespace LazyExpr

open Narrated

/-- The host has plain values for the variables of an expression that are stored as bare scalars. -/
def Scene.Unwrapped (scene : Scene) (layout : Layout) (e : Expr) : Prop :=
  ∀ v ∈ e.references, (layout.provider v.1 v.2).storage.isRaw → ∀ log slot,
    scene.host.answer log (v.1.lookup v.2) = .ok slot → ∃ value, slot = .value value

namespace Expr

/-- The leaf below `??` and `?:` that evaluation selects, and what is found there: the shared null, what the host
has for a variable, or else the value of the leaf. `??` selects a leaf of its left side unless the value found there
is nullish. -/
def select (scene : Scene) : Expr → Narrated Failure (Expr × Slot)
  | null span => pure (null span, .handle .null)
  | ref span scope name => do
    let slot ← scene.host.askVariable scope name
    pure (ref span scope name, slot)
  | coalesce _ left right => do
    let found ← select scene left
    let value ← ofOutcome (found.2.plain scene.store)
    if value.isNullish then select scene right else pure found
  | choose _ condition yes no => do
    let value ← evaluate scene condition
    if value.isTruthy then select scene yes else select scene no
  | e => do
    let value ← evaluate scene e
    pure (e, .value value)

/-- An expression means the value of the leaf that it selects. -/
theorem evaluate_eq_select (scene : Scene) (e : Expr) :
    e.evaluate scene = e.select scene >>= fun found => ofOutcome (found.2.plain scene.store) := by
  have computed : ∀ e, e.evaluate scene = (e.evaluate scene >>= fun value => pure (e, Slot.value value)) >>=
      fun found : Expr × Slot => ofOutcome (found.2.plain scene.store) := by
    intro e
    rw [bind_assoc]
    exact (bind_pure (e.evaluate scene)).symm
  induction e with
  | null => rfl
  | ref span scope name =>
    rw [evaluate_ref, select, bind_assoc]
    rfl
  | coalesce span left right ihLeft ihRight =>
    rw [evaluate, select, ihLeft, bind_assoc, bind_assoc]
    refine bind_congr fun found => ?_
    cases value : found.2.plain scene.store with
    | error failure => rfl
    | ok v =>
      change (if v.isNullish then right.evaluate scene else pure v) =
        (if v.isNullish then right.select scene else pure found) >>= _
      by_cases nullish : v.isNullish
      · rw [if_pos nullish, if_pos nullish]
        exact ihRight
      · rw [if_neg nullish, if_neg nullish, pure_bind, value]
        rfl
  | choose span condition yes no ihCondition ihYes ihNo =>
    rw [evaluate, select, bind_assoc]
    refine bind_congr fun value => ?_
    by_cases taken : value.isTruthy
    · rw [if_pos taken, if_pos taken]
      exact ihYes
    · rw [if_neg taken, if_neg taken]
      exact ihNo
  | _ => exact computed _

/-- Where a leaf is null, the shared null has been found. Where it is a variable, that is what the host has been
asked last. -/
theorem select_leaf {scene : Scene} {e leaf : Expr} {log log' : Log} {found : Slot}
    (selected : e.select scene log = (.ok (leaf, found), log')) :
    (∀ span, leaf = .null span → found = .handle .null) ∧
    ∀ span scope name, leaf = .ref span scope name →
      ∃ before, log' = before ++ [scope.lookup name] ∧
        scene.host.answer before (scope.lookup name) = .ok found := by
  induction e generalizing log with
  | null span =>
    cases selected
    exact ⟨fun _ _ => rfl, fun _ _ _ same => (nomatch same)⟩
  | ref span scope name =>
    obtain ⟨slot, log'', asked, later⟩ := bind_eq_ok selected
    cases later
    refine ⟨fun _ same => (nomatch same), fun _ _ _ same => ?_⟩
    cases same
    exact ⟨log, (congrArg Prod.snd asked).symm, congrArg Prod.fst asked⟩
  | coalesce span left right ihLeft ihRight =>
    obtain ⟨first, log'', asked, later⟩ := bind_eq_ok selected
    obtain ⟨value, log₃, plain, later⟩ := bind_eq_ok later
    have unlogged : log'' = log₃ := congrArg Prod.snd plain
    by_cases nullish : value.isNullish
    · rw [if_pos nullish] at later
      exact ihRight later
    · rw [if_neg nullish] at later
      cases later
      exact ihLeft (unlogged ▸ asked)
  | choose span condition yes no ihCondition ihYes ihNo =>
    obtain ⟨value, log'', asked, later⟩ := bind_eq_ok selected
    by_cases taken : value.isTruthy
    · rw [if_pos taken] at later
      exact ihYes later
    · rw [if_neg taken] at later
      exact ihNo later
  | _ =>
    obtain ⟨value, log'', asked, later⟩ := bind_eq_ok selected
    cases later
    exact ⟨fun _ same => (nomatch same), fun _ _ _ same => (nomatch same)⟩

/-- Where no handle is on offer, and bare variables are given as plain values, no handle is found. -/
theorem select_plain {setting : Setting} {scene : Scene} {e : Expr} (offers : setting.offersHandle e = false)
    (plain : scene.Unwrapped setting.layout e) :
    Yields (fun found => ∃ value, found.2 = .value value) (e.select scene) := by
  induction e with
  | null => cases offers
  | ref span scope name =>
    have raw : (setting.layout.provider scope name).storage.isRaw := by
      simpa only [Setting.offersHandle, Bool.not_eq_false'] using offers
    have asked : Yields (fun slot => ∃ value, slot = .value value) (scene.host.askVariable scope name) :=
      fun log slot log' given =>
        plain (scope, name) (List.mem_singleton_self _) raw log slot (congrArg Prod.fst given)
    exact asked.bind fun slot found => .pure found
  | coalesce span left right ihLeft ihRight =>
    obtain ⟨offersLeft, offersRight⟩ := Bool.or_eq_false_iff.mp offers
    obtain ⟨plainLeft, plainRight⟩ := List.forall_mem_append.mp plain
    refine (ihLeft offersLeft plainLeft).bind fun found bare => (Yields.trivial _).bind fun value _ => ?_
    by_cases nullish : value.isNullish
    · rw [if_pos nullish]
      exact ihRight offersRight plainRight
    · rw [if_neg nullish]
      exact .pure bare
  | choose span condition yes no _ ihYes ihNo =>
    obtain ⟨offersYes, offersNo⟩ := Bool.or_eq_false_iff.mp offers
    obtain ⟨plainBoth, plainNo⟩ := List.forall_mem_append.mp plain
    obtain ⟨_, plainYes⟩ := List.forall_mem_append.mp plainBoth
    refine (Yields.trivial _).bind fun value _ => ?_
    by_cases taken : value.isTruthy
    · rw [if_pos taken]
      exact ihYes offersYes plainYes
    · rw [if_neg taken]
      exact ihNo offersNo plainNo
  | _ => exact (Yields.trivial _).bind fun value _ => .pure ⟨value, rfl⟩

end Expr

/-- The slot has the value of what was found, and if that is a handle it is the slot itself. -/
def Slot.Carries (store : Store) (slot found : Slot) : Prop :=
  (∃ value, slot.Holds store value ∧ found.Holds store value) ∧ ∀ h, found = .handle h → slot = .handle h

namespace Setting

variable {setting : Setting} {scene : Scene}

/-- Code that yields a handle carries what is found at the selected leaf to its end, if suspension is permitted and
every handle is ready. -/
theorem HandleCode.carries {mode : Mode} (suspension : mode.allowsSuspension)
    (ready : ∀ slot : Slot, slot.pending? scene.store = none) {e : Expr} {c : TypedCode}
    (derived : setting.HandleCode mode e c) (plain : scene.Unwrapped setting.layout e) :
    Tracks (fun slot found => slot.Carries scene.store found.2) (c.code.evaluate scene) (e.select scene) := by
  have allReady : scene.AllReady := ⟨fun _ _ slot _ => ready slot, fun _ _ slot _ => ready slot⟩
  induction derived with
  | null => exact .pure ⟨⟨.null, rfl, rfl⟩, fun h same => same⟩
  | @provider span scope name _ =>
    rw [provider_evaluate, ← bind_pure (ExceptT.adapt _ _)]
    refine (Tracks.adapt _).bind fun slot found same => .pure ?_
    obtain ⟨value, holds⟩ := Slot.holds_of_ready (ready slot)
    exact ⟨⟨value, holds, same ▸ holds⟩, fun h handle => same.trans handle⟩
  | @boxed e c eager offers =>
    -- What is wrapped has lost its handles on the way, so it matters that there were none to find.
    have bare := Expr.select_plain (offers suspension) plain
    have means := TypedCode.means_boxed (eager.means allReady)
    rw [Code.Means, Expr.evaluate_eq_select] at means
    refine Tracks.before means bare fun found unwrapped => ?_
    obtain ⟨value, same⟩ := unwrapped
    rw [same]
    refine ⟨value, rfl, fun slot holds => ⟨⟨value, holds, rfl⟩, fun h handle => ?_⟩⟩
    cases handle
  | @coalesce span left right l l' r _ _ awaited ihLeft ihRight =>
    obtain ⟨plainLeft, plainRight⟩ := List.forall_mem_append.mp plain
    have fromLeft : Tracks (fun slot found => slot.Carries scene.store found.2) (l'.code.evaluate scene)
        (left.select scene) := by
      cases awaited with
      | unneeded _ | present _ => exact ihLeft plainLeft
      | waits _ => exact Code.tracks_await (ihLeft plainLeft) (fun slot _ _ => ready slot) _
    refine fromLeft.bind fun slot found carries => ?_
    obtain ⟨value, holds, holds'⟩ := carries.1
    rw [holds.isPresent, show found.2.plain scene.store = .ok value from holds']
    change Tracks _ (if !value.isNullish then pure slot else r.code.evaluate scene)
      (if value.isNullish then right.select scene else pure found)
    cases value.isNullish with
    | true => exact ihRight plainRight
    | false => exact .pure carries
  | @choose span condition yes no c y n eager _ _ ihYes ihNo =>
    obtain ⟨plainBoth, plainNo⟩ := List.forall_mem_append.mp plain
    obtain ⟨_, plainYes⟩ := List.forall_mem_append.mp plainBoth
    exact TypedCode.tracks_ternary (eager.means allReady) (ihYes plainYes) (ihNo plainNo)

end Setting

namespace Entry

variable {setting : Setting} {entry : Entry} {e : Expr} {next : Nat} {c : TypedCode} {mode : Mode}
variable {host : Host} {s : Session} {o : Options} {cancelled : Bool} {slot : Slot}

/-- Effects survive `??` and `?:`. Where a handle was asked for in a mode that permits suspension, a run ends in the
handle of the leaf that the expression selects, by what the host has answered and however the handles that are still
pending will be completed. For null that is the shared null, and for a variable the handle, if it is one, that the
host has given for it last. Once it is ready its effects and its value are rendered, and nothing else. -/
theorem done_selected (lowered : (entry.lower setting e next).1 = some c)
    (asked : entry.handleMode? setting e next = some mode) (suspension : mode.allowsSuspension)
    (reached : Session.Reached (.assemble c) host (fun _ => False) (fun _ => True) s)
    (plain : ∀ v ∈ e.references, (setting.layout.provider v.1 v.2).storage.isRaw → ∀ answer,
      (v.1.lookup v.2, answer) ∈ host.script (s.finish (.assemble c) host o cancelled).log →
        ∃ value, answer = .value value)
    (done : (s.finish (.assemble c) host o cancelled).result = .ok (.done slot)) (eventual : Nat → Value) :
    let told := host.script (s.finish (.assemble c) host o cancelled).log
    let store := s.store.completed eventual
    ∃ leaf found, e.select ⟨host.retelling told, store, false⟩ [] = (.ok (leaf, found), told.events) ∧
      slot.plain store = found.plain store ∧
      (∀ span, leaf = .null span → slot = .handle .null) ∧
      (∀ span scope name, leaf = .ref span scope name → told.getLast? = some (scope.lookup name, found)) ∧
      ∀ h, found = .handle h → slot = .handle h ∧ ∀ store value, h.value? store = some value →
        slot.render store = .ok (String.join (h.effects store) ++ value.text) := by
  intro told store
  have evaluated := reached.evaluate_retelling done (Store.extends_completed eventual s.store)
  change c.code.evaluate ⟨host.retelling told, store, false⟩ [] = (.ok slot, told.events) at evaluated
  have derived : setting.HandleCode mode e c := by
    have obeys := lower_obeys lowered
    rw [asked] at obeys
    exact obeys
  have unwrapped : Scene.Unwrapped ⟨host.retelling told, store, false⟩ setting.layout e := by
    intro v member raw before answer answered
    have entry := Host.entry_of_answer_retelling (v.1.lookup_ne_call v.2) answered
    exact plain v member raw answer (List.mem_of_getElem? entry)
  obtain ⟨agree, sameLog⟩ := derived.carries suspension (Store.ready_completed eventual s.store) unwrapped []
  rw [evaluated] at agree sameLog
  rcases selected : e.select ⟨host.retelling told, store, false⟩ [] with ⟨failure | ⟨leaf, found⟩, log⟩
  · rw [selected] at agree
    cases agree
  · rw [selected] at agree sameLog
    obtain ⟨⟨value, holds, holds'⟩, handle⟩ : slot.Carries store found := by
      cases agree with
      | ok carries => exact carries
    have logged : told.events = log := sameLog
    obtain ⟨atNull, atVariable⟩ := Expr.select_leaf selected
    refine ⟨leaf, found, by rw [logged], holds.trans holds'.symm, ?_, ?_, ?_⟩
    · exact fun span null => handle .null (atNull span null)
    · intro span scope name same
      obtain ⟨before, ends, answered⟩ := atVariable span scope name same
      exact Host.getLast?_of_answer_retelling (scope.lookup_ne_call name) (logged.trans ends) answered
    · intro h same
      have carried := handle h same
      refine ⟨carried, fun store value found => ?_⟩
      rw [carried, Slot.render, Handle.render, Handle.resolve, found]
      rfl

/-- A parameter with an effect takes the place of one that turns out to be null. -/
theorem done_selected_fallback :
    let e : Expr := .coalesce .synthetic (.ref .synthetic .param "x") (.ref .synthetic .param "y")
    let p := Program.assemble ((Setting.static [] []).compile e 0).1
    let host : Host := .ofTables [("x", .cell 0), ("y", .cell 1)] [] []
    let start := Store.empty.set 1 { effects := ["<b/>"] }
    let fresh : Session := { frame := .fresh p, store := start }
    let detached := fresh.after (fresh.finish p host {} false)
    let s : Session := { detached with store := start.set 0 { value := some .null } }
    (s.finish p host {} false).result = .ok (.done (.handle (.cell 1))) ∧
      (Slot.handle (.cell 1)).render (s.store.set 1 { value := some (.string "bee"), effects := ["<b/>"] }) =
        .ok (String.join ["<b/>"] ++ "bee") := by
  intro e p host start fresh detached s
  have completed : (Handle.cell 0).complete start .null = .ok s.store := rfl
  have reached : Session.Reached p host (fun _ => False) (fun _ => True) s := by
    have keeps : host.Keeps (fun _ => False) start [] (fresh.finish p host {} false).log :=
      Host.keeps_of_none (fun _ => id) host _ _ _
    have run : Session.Reached p host (fun _ => False) (fun _ => True) detached :=
      .turn (.fresh start) trivial (.run keeps)
    exact .turn run trivial (.complete completed)
  have done : (s.finish p host {} false).result = .ok (.done (.handle (.cell 1))) := rfl
  have logged : (s.finish p host {} false).log = [.param "x", .param "y"] := rfl
  have wrapped : ∀ v ∈ e.references, ((Setting.static [] []).layout.provider v.1 v.2).storage.isRaw →
      ∀ answer, (v.1.lookup v.2, answer) ∈ host.script (s.finish p host {} false).log →
        ∃ value, answer = .value value := by
    intro v member raw
    rcases List.mem_cons.mp member with same | member
    · rw [same] at raw
      cases raw
    · rw [List.mem_singleton.mp member] at raw
      cases raw
  obtain ⟨leaf, found, selected, _, _, _, carried⟩ :=
    @done_selected (.static [] []) .compile e 0 _ .general host s {} false _ rfl rfl rfl reached wrapped done
      fun _ => .null
  have known : (e.select ⟨host.retelling (host.script [.param "x", .param "y"]),
      s.store.completed fun _ => .null, false⟩ []).1 = .ok (.ref .synthetic .param "y", .handle (.cell 1)) := rfl
  rw [← logged] at known
  have same : found = .handle (.cell 1) :=
    congrArg Prod.snd (Except.ok.inj ((congrArg Prod.fst selected).symm.trans known))
  exact ⟨done, (carried (.cell 1) same).2 (s.store.set 1 _) (.string "bee") rfl⟩

end Entry

end LazyExpr
