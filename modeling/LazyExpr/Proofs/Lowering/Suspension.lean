import LazyExpr.Proofs.Lowering.Discipline
import LazyExpr.Proofs.Machine.Protocol

namespace LazyExpr

/-- The regime under which an expression is lowered. -/
def Regime.ofExpr (layout : Layout) (resolved : List String) (e : Expr) : Regime where
  trusted := e.Promised layout resolved
  awaits := False
  result := False

theorem Regime.ofExpr_trusts (layout : Layout) (resolved : List String) (e : Expr) :
    (ofExpr layout resolved e).Trusts layout resolved e :=
  fun v member settles => ⟨v, member, rfl, settles⟩

namespace Entry

variable {layout : Layout} {resolved : List String} {entry : Entry} {e : Expr} {next : Nat} {c : TypedCode}
variable {host : Host} {allowed : Move → Prop} {s : Session}

/-- In every session of lowered code the frame is sound. -/
theorem reached_sound (lowered : (entry.lower (.static layout resolved) e next).1 = some c)
    (reached : Session.Reached (.assemble c) host (e.Promised layout resolved) allowed s) :
    ∃ known,
      Frame.Sound (.assemble c) (.ofExpr layout resolved e) (fun slot => slot.pending? s.store = none) s.frame
        known := by
  have disciplined := Entry.lower_disciplined id lowered (Regime.ofExpr_trusts layout resolved e)
  have safe := Program.assemble_safe disciplined nofun
  exact Session.Reached.sound (Program.assemble_forward c) (Program.assemble_registersBelow c) safe reached

/-- Lowered code keeps to the suspension protocol, whatever has been run and completed before. Throughout a run
only instructions that wait look at slots that are pending, and if the run fails for want of a value, it is the
host that has failed with that. -/
theorem run_protocol (lowered : (entry.lower (.static layout resolved) e next).1 = some c)
    (reached : Session.Reached (.assemble c) host (e.Promised layout resolved) (fun _ => True) s) {o : Options}
    {cancelled : Bool}
    (keeps : host.Keeps (e.Promised layout resolved) s.store s.log (s.finish (.assemble c) host o cancelled).log) :
    (∀ g log instr, Frame.Steps (.assemble c) o ⟨host, s.store, cancelled⟩ s.frame s.log g log →
      (Program.assemble c).instrs[g.pc]? = some instr → instr.isAwait = false → ∀ r ∈ instr.reads,
      ∃ slot, Registers.read g.registers r = .ok slot ∧ slot.pending? s.store = none) ∧
    ∀ failure, (s.finish (.assemble c) host o cancelled).result = .error failure → failure.kind = .notReady →
      ∃ before event, (s.finish (.assemble c) host o cancelled).log = before ++ [event] ∧
        host.answer before event = .error failure := by
  obtain ⟨known, sound⟩ := reached_sound lowered reached
  have bounded := Program.assemble_registersBelow c
  have ends : Frame.Ends (.assemble c) o ⟨host, s.store, cancelled⟩ s.frame s.log
    (s.finish (.assemble c) host o cancelled) := Frame.run_ends (Program.assemble_forward c) s.frame s.log
  refine ⟨fun g log instr steps found other => ?_, fun failure failed kind => ?_⟩
  · have behind := (steps.rest ends).log_grows
    obtain ⟨known', sound'⟩ := sound.steps bounded steps (keeps.mono List.prefix_rfl behind)
    exact sound'.reads_ready found other
  · obtain ⟨g, log, steps, last⟩ := ends.last
    obtain ⟨known', sound'⟩ := sound.steps bounded steps (keeps.mono List.prefix_rfl (Frame.step_stopped_log last))
    obtain ⟨event, logged, answered⟩ := sound'.step_notReady last failed kind
    exact ⟨log, event, logged, answered⟩

/-- A parameter that is pending is waited for before a range variable can take its place. -/
theorem run_protocol_fallback :
    let e : Expr := .coalesce .synthetic (.ref .synthetic .param "x") (.ref .synthetic .range "i")
    let p := Program.assemble ((Setting.static [] []).compile e 0).1
    let host : Host := .ofTables [("x", .cell 0)] [("i", .value (.int 3))] []
    let fresh : Session := { frame := .fresh p, store := .empty }
    let detached := fresh.after (fresh.finish p host {} false)
    let s : Session := { detached with store := Store.empty.set 0 { value := some .null } }
    ∀ g log instr, Frame.Steps p {} ⟨host, s.store, false⟩ s.frame s.log g log →
      p.instrs[g.pc]? = some instr → instr.isAwait = false → ∀ r ∈ instr.reads,
      ∃ slot, Registers.read g.registers r = .ok slot ∧ slot.pending? s.store = none := by
  intro e p host fresh detached s
  have keeps : ∀ store start finish, host.Keeps (e.Promised [] []) store start finish := by
    intro store start finish before event slot _ _ promised answered
    obtain ⟨v, member, same, settles⟩ := promised
    rcases List.mem_cons.mp member with param | member
    · subst param
      rcases settles with other | other
      · exact absurd rfl other
      · exact absurd other (by decide)
    · cases List.mem_singleton.mp member
      subst same
      cases answered
      rfl
  have reached : Session.Reached p host (e.Promised [] []) (fun _ => True) s := by
    have run : Session.Reached p host (e.Promised [] []) (fun _ => True) detached :=
      .turn (.fresh .empty) trivial (.run (keeps _ _ _))
    have completed : (Handle.cell 0).complete detached.store .null = .ok s.store := rfl
    exact .turn run trivial (.complete completed)
  exact (@run_protocol [] [] .compile e 0 _ host s rfl reached {} false (keeps _ _ _)).1

end Entry

end LazyExpr
