import LazyExpr.Proofs.Machine.Execution

namespace LazyExpr

/-- Lookups and calls with the answers that they were given. -/
abbrev Script := List (Event × Slot)

def Script.events (script : Script) : Log := script.map Prod.fst

theorem Script.events_append (a b : Script) : (a ++ b : Script).events = a.events ++ b.events :=
  List.map_append

namespace Host

/-- The lookups and calls that succeed when these events follow on that log, with their answers. -/
def answersFrom (host : Host) (before : Log) : Log → Script
  | [] => []
  | event :: rest =>
    match host.answer before event with
    | .ok slot => (event, slot) :: host.answersFrom (before ++ [event]) rest
    | .error _ => host.answersFrom (before ++ [event]) rest

/-- The lookups and calls of a log that have succeeded, with their answers. -/
def script (host : Host) (log : Log) : Script := host.answersFrom [] log

/-- Asked for one after the other, all these lookups and calls succeed at once, with these answers. -/
def Tells (host : Host) (before : Log) : Script → Prop
  | [] => True
  | (event, slot) :: rest => host.answer before event = .ok slot ∧ host.Tells (before ++ [event]) rest

variable {host : Host}

theorem answersFrom_append (host : Host) (before a b : Log) :
    host.answersFrom before (a ++ b) = host.answersFrom before a ++ host.answersFrom (before ++ a) b := by
  induction a generalizing before with
  | nil => rw [List.append_nil, List.nil_append, answersFrom, List.nil_append]
  | cons event rest ih =>
    have later := ih (before ++ [event])
    rw [List.append_assoc] at later
    simp only [List.cons_append, answersFrom]
    cases host.answer before event with
    | ok slot => exact congrArg ((event, slot) :: ·) later
    | error failure => exact later

theorem script_append (host : Host) (log more : Log) :
    host.script (log ++ more) = host.script log ++ host.answersFrom log more :=
  host.answersFrom_append [] log more

theorem script_failed {log : Log} {event : Event} {failure : Failure}
    (failed : host.answer log event = .error failure) :
    host.script (log ++ [event]) = host.script log := by
  rw [script_append, answersFrom, failed]
  exact List.append_nil _

theorem Tells.answersFrom {before : Log} {script : Script} (tells : host.Tells before script) :
    host.answersFrom before script.events = script := by
  induction script generalizing before with
  | nil => rfl
  | cons entry rest ih =>
    obtain ⟨answered, later⟩ := tells
    have others := ih later
    simp only [Script.events, List.map_cons, Host.answersFrom, answered]
    exact congrArg (entry :: ·) others

theorem tells_append {before : Log} {a b : Script} :
    host.Tells before (a ++ b) ↔ host.Tells before a ∧ host.Tells (before ++ a.events) b := by
  induction a generalizing before with
  | nil => simp only [List.nil_append, Tells, Script.events, List.map_nil, List.append_nil, true_and]
  | cons entry rest ih =>
    simp only [List.cons_append, Tells, ih, Script.events, List.map_cons, List.append_assoc, List.nil_append,
      and_assoc]

/-- Whatever is in the script of a log has been answered like that. -/
theorem answer_of_mem {before log : Log} {event : Event} {slot : Slot}
    (member : (event, slot) ∈ host.answersFrom before log) :
    ∃ log', host.answer log' event = .ok slot := by
  induction log generalizing before with
  | nil => cases member
  | cons first rest ih =>
    rw [answersFrom] at member
    cases answered : host.answer before first with
    | error failure =>
      rw [answered] at member
      exact ih member
    | ok slot' =>
      rw [answered] at member
      rcases List.mem_cons.mp member with same | later
      · cases same
        exact ⟨before, answered⟩
      · exact ih later

/-- The host that answers at once what the script says, one entry for each question, and fails behind its end. -/
def retelling (host : Host) (script : Script) : Host where
  param log name :=
    match script[log.length]? with
    | some (.param name', .handle h) => .ok (if name' = name then some h else none)
    | _ => .ok none
  binding log name :=
    match script[log.length]? with
    | some (.binding name', slot) => .ok (if name' = name then some slot else none)
    | _ => .ok none
  registry := host.registry.map fun f =>
    { f with body := fun log _ =>
        match script[log.length]? with
        | some (_, .value v) => .ok v
        | _ => .error (.undefinedFunction f.signature.name) }

theorem find?_retelling (host : Host) (script : Script) (name : String) {f : Function}
    (found : host.registry.find? name = some f) : ∃ f', (host.retelling script).registry.find? name = some f' ∧
    f'.signature = f.signature ∧ ∀ log args v, script[log.length]? = some (.call name args, .value v) →
      f'.body log args = .ok v := by
  simp only [Registry.find?, retelling, List.find?_map, Option.map_eq_some_iff] at found ⊢
  refine ⟨_, ⟨f, found, rfl⟩, rfl, fun log args v entry => ?_⟩
  simp only [entry]

/-- The retelling host gives an answer again that the host has given. -/
theorem answer_retelling {script : Script} {event : Event} {slot : Slot} {before log : Log}
    (answered : host.answer before event = .ok slot) (entry : script[log.length]? = some (event, slot)) :
    (host.retelling script).answer log event = .ok slot := by
  cases event with
  | param name =>
    simp only [answer, readParam] at answered
    split at answered
    · cases answered
      simp only [answer, readParam, retelling, entry, if_true]
    · cases answered
    · cases answered
  | binding name =>
    simp only [answer, readBinding, retelling, entry, if_true]
  | call name args =>
    obtain ⟨v, called, same⟩ := Outcome.map_eq_ok answered
    subst same
    simp only [Registry.call] at called
    split at called
    · cases called
    · rename_i f found
      obtain ⟨f', found', signature, body⟩ := host.find?_retelling script name found
      split at called
      · cases called
      · rename_i valid
        simp only [answer, Registry.call, found', signature, valid, body log args v entry]
        rfl

theorem tells_retelling {script : Script} (given : ∀ event slot, (event, slot) ∈ script →
    ∃ log, host.answer log event = .ok slot) : (host.retelling script).Tells [] script := by
  have suffix :
      ∀ rest passed : Script, script = passed ++ rest → (host.retelling script).Tells passed.events rest := by
    intro rest
    induction rest with
    | nil => exact fun _ _ => trivial
    | cons entry rest ih =>
      intro passed parts
      have member : entry ∈ script := parts ▸ List.mem_append_right passed List.mem_cons_self
      obtain ⟨log, answered⟩ := given entry.1 entry.2 member
      have length : passed.events.length = passed.length := List.length_map _
      have position : script[passed.events.length]? = some entry := by
        rw [length, parts, List.getElem?_append_right (Nat.le_refl _), Nat.sub_self]
        rfl
      have further := ih (passed ++ [entry]) (by rw [List.append_assoc]; exact parts)
      rw [Script.events_append] at further
      exact ⟨answer_retelling answered position, further⟩
  exact suffix script [] rfl

/-- The retelling host makes up no variables. -/
theorem entry_of_answer_retelling {script : Script} {log : Log} {event : Event} {slot : Slot}
    (lookup : ∀ name args, event ≠ .call name args)
    (answered : (host.retelling script).answer log event = .ok slot) :
    script[log.length]? = some (event, slot) := by
  cases event with
  | param name | binding name =>
    simp only [answer, readParam, readBinding, retelling] at answered
    split at answered
    · rename_i there found
      split at found
      · rename_i name' there' entry
        split at found
        · rename_i same
          cases found
          cases answered
          exact same ▸ entry
        · cases found
      · cases found
    · cases answered
    · cases answered
  | call name args => exact absurd rfl (lookup name args)

theorem getLast?_of_answer_retelling {script : Script} {before : Log} {event : Event} {slot : Slot}
    (lookup : ∀ name args, event ≠ .call name args) (last : script.events = before ++ [event])
    (answered : (host.retelling script).answer before event = .ok slot) : script.getLast? = some (event, slot) := by
  have entry := entry_of_answer_retelling lookup answered
  have events : script.length = script.events.length := (List.length_map _).symm
  have length : script.length = before.length + 1 := by
    rw [events, last, List.length_append, List.length_singleton]
  rw [List.getLast?_eq_getElem?, length]
  exact entry

end Host

end LazyExpr
