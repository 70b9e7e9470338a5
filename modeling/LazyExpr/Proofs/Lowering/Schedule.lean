import LazyExpr.Proofs.Lowering.Suspension
import LazyExpr.Proofs.Machine.Retry

namespace LazyExpr

namespace Entry

variable {layout : Layout} {resolved : List String} {entry : Entry} {e : Expr} {next : Nat} {c : TypedCode}
variable {host : Host} {eventual : Nat → Value} {s : Session}

/-- In what order handles are completed and how often the frame is run cannot be told from the outcome. The first
run that is done or fails gives the slot or the failure, and leaves the log, of a single run with all handles
completed beforehand. If the host answers the same again, later runs fail in the same way and each of them leaves
the event of the failing step in the log once more. -/
theorem finish_eq_replay (lowered : (entry.lower (.static layout resolved) e next).1 = some c)
    (reached : Session.Reached (.assemble c) host (e.Promised layout resolved) (Move.Scheduled eventual) s)
    (keeps : host.Keeps (e.Promised layout resolved) s.store s.log (s.finish (.assemble c) host {} false).log) :
    let finish := s.finish (.assemble c) host {} false
    let single := (Program.assemble c).replay host (s.store.completed eventual)
    (s.failures = 0 → (∀ point h, finish.result ≠ .ok (.detached point h)) →
      single.result = finish.result ∧ single.log = finish.log) ∧
    (host.Repeatable → s.failures ≠ 0 → ∃ failure again, finish.result = .error failure ∧
      single.result = .error failure ∧ again.length ≤ 1 ∧ again <:+ single.log ∧
      finish.log = single.log ++ (List.replicate s.failures again).flatten) := by
  have forward := Program.assemble_forward c
  have bounded := Program.assemble_registersBelow c
  have disciplined := Entry.lower_disciplined id lowered (Regime.ofExpr_trusts layout resolved e)
  have safe := Program.assemble_safe disciplined nofun
  obtain ⟨known, sound⟩ := reached_sound lowered reached
  refine ⟨fun unfailed ended => ?_, fun repeatable failed => ?_⟩
  · have follows := Session.Reached.follows forward bounded safe reached unfailed
    exact follows.replay forward bounded sound keeps ended
  · obtain ⟨failure, again, stalls⟩ := Session.Reached.stalls forward bounded safe repeatable reached failed
    obtain ⟨result, logged, _⟩ := stalls.finish forward repeatable sound
    obtain ⟨replayed, short, suffix, events⟩ := stalls.replay forward
    exact ⟨failure, again, result, replayed, short, suffix, logged.trans events⟩

/-- A parameter that is pending when the frame is first run. -/
theorem finish_eq_replay_fallback :
    let e : Expr := .coalesce .synthetic (.ref .synthetic .param "x") (.ref .synthetic .param "y")
    let p := Program.assemble ((Setting.static [] []).compile e 0).1
    let host : Host := .ofTables [("x", .cell 0), ("y", .cell 1)] [] []
    let fresh : Session := { frame := .fresh p, store := .empty }
    let detached := fresh.after (fresh.finish p host {} false)
    let s : Session := { detached with store := Store.empty.set 0 { value := some .null } }
    (p.replay host (s.store.completed fun _ => .null)).result = (s.finish p host {} false).result ∧
      (p.replay host (s.store.completed fun _ => .null)).log = (s.finish p host {} false).log := by
  intro e p host fresh detached s
  have keeps : ∀ store start finish, host.Keeps (e.Promised [] []) store start finish := by
    refine Host.keeps_of_none (fun event promised => ?_) host
    obtain ⟨v, member, _, settles⟩ := promised
    rcases List.mem_cons.mp member with same | member
    · exact Layout.not_settles_param rfl (same ▸ settles)
    · exact Layout.not_settles_param rfl (List.mem_singleton.mp member ▸ settles)
  have run : Session.Reached p host (e.Promised [] []) (Move.Scheduled fun _ => .null) detached :=
    .turn (.fresh .empty) .run (.run (keeps _ _ _))
  have completed : (Handle.cell 0).complete detached.store .null = .ok s.store := rfl
  have reached : Session.Reached p host (e.Promised [] []) (Move.Scheduled fun _ => .null) s :=
    .turn run (.complete 0) (.complete completed)
  have ended : ∀ point h, (s.finish p host {} false).result ≠ .ok (.detached point h) := by
    intro point h same
    have done : (s.finish p host {} false).result = .ok (.done (.handle (.cell 1))) := rfl
    cases done.symm.trans same
  exact (@finish_eq_replay [] [] .compile e 0 _ host (fun _ => .null) s rfl reached (keeps _ _ _)).1 rfl ended

/-- Each run that asks for a parameter that is missing asks again. -/
theorem missing_asked_again :
    let e : Expr := .ref .synthetic .param "x"
    let p := Program.assemble ((Setting.static [] []).compile e 0).1
    let host : Host := .ofTables [] [] []
    let fresh : Session := { frame := .fresh p, store := .empty }
    let s := fresh.after (fresh.finish p host {} false)
    Session.Reached p host (e.Promised [] []) (Move.Scheduled fun _ => .null) s ∧
      host.Keeps (e.Promised [] []) s.store s.log (s.finish p host {} false).log ∧
      (∃ failure, (s.finish p host {} false).result = .error failure) ∧
      (s.finish p host {} false).log ≠ (p.replay host (s.store.completed fun _ => .null)).log := by
  intro e p host fresh s
  have keeps : ∀ store start finish, host.Keeps (e.Promised [] []) store start finish := by
    refine Host.keeps_of_none (fun event promised => ?_) host
    obtain ⟨v, member, _, settles⟩ := promised
    exact Layout.not_settles_param rfl (List.mem_singleton.mp member ▸ settles)
  have asked : (s.finish p host {} false).log = [.param "x", .param "x"] := rfl
  have replayed : (p.replay host (s.store.completed fun _ => .null)).log = [.param "x"] := rfl
  refine ⟨.turn (.fresh .empty) .run (.run (keeps _ _ _)), keeps _ _ _, ⟨_, rfl⟩, ?_⟩
  rw [asked, replayed]
  exact nofun

end Entry

end LazyExpr
