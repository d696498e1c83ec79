import Mathlib
import NetPrep.Prepare.Legalize
import NetPrep.Proofs.Reusing

/-!
# Events of processes

Routing an event of a process through a wire, as edits of a sound module.
-/

namespace NetPrep

open Prepare Prep

namespace Module

variable {m m' : Module} {process : NodeId} {event : ValueId}

/-- An event of a process comes as it is, or from a wire. -/
inductive RoutesEvent (process : NodeId) (event : ValueId) (m m' : Module) : Prop
  | simple (h : m = m')
  | wired {np : Node} {type stype : TypeId} {decl read conn d : NodeId} {storage value : ValueId}
      {i : Nat} {m₁ m₂ m₃ m₄ : Module} (hp : m.live? process = some np)
      (hevent : m.def? event = some (.result d i)) (htype : m.type? event = some type)
      (hdecl : m.Creates m₁ m.body (.front m.body) decl
        (.fresh .wire [] [storage] m.body np.loc) [stype])
      (hstype : m₁.types.get stype = .ok (.storage type)) (hs₁ : Sound m₁)
      (hread : m₁.Creates m₂ np.parent (.before process) read
        (.fresh .read [storage] [value] np.parent np.loc) [type]) (hs₂ : Sound m₂)
      (hr : m₂.Redirects m₃ (substitute event value)) (hs₃ : Sound m₃)
      (hconn : m₃.Creates m₄ np.parent (.before process) conn
        (.fresh .assign [storage, event] [] np.parent np.loc) []) (hs₄ : Sound m₄)
      (hsettle : m₄.Settles (· = read) m')

/-- The events of a process are routed one after another. -/
inductive RoutesEvents (process : NodeId) : List ValueId → Module → Module → Prop
  | nil (m : Module) : RoutesEvents process [] m m
  | cons {v : ValueId} {vs : List ValueId} {m m₁ m' : Module} (h : m.RoutesEvent process v m₁)
      (hrest : RoutesEvents process vs m₁ m') : RoutesEvents process (v :: vs) m m'

theorem RoutesEvent.sound (h : m.RoutesEvent process event m') (hs : Sound m) : Sound m' := by
  cases h with
  | simple h => exact h ▸ hs
  | wired _ _ _ _ _ _ _ _ _ _ _ hs₄ hsettle => exact hsettle.inlines.sound hs₄

/-- Routing an event keeps every node, and the places of those that are not printed at their uses. -/
theorem RoutesEvent.live {j : NodeId} {n : Node} (h : m.RoutesEvent process event m')
    (hj : m.live? j = some n) : ∃ n', m'.live? j = some n' ∧ n'.op = n.op ∧
      n'.results = n.results ∧ (n.op.isAlwaysInline = false → n'.parent = n.parent) := by
  cases h with
  | simple h => exact ⟨n, h ▸ hj, rfl, rfl, fun _ => rfl⟩
  | wired _ _ _ hdecl _ _ hread _ hr _ hconn _ hsettle =>
    obtain ⟨n', hj', hop, hres, hp⟩ :=
      hsettle.inlines.live (hconn.live (hr.live (hread.live (hdecl.live hj))))
    exact ⟨n', hj', hop, hres, hp⟩

theorem RoutesEvent.kept (h : m.RoutesEvent process event m') : m.Kept m' := by
  cases h with
  | simple h => exact h ▸ .refl _
  | wired _ _ _ hdecl _ _ hread _ hr _ hconn _ hsettle =>
    exact (((hdecl.kept.trans hread.kept).trans hr.kept).trans hconn.kept).trans hsettle.inlines.kept

theorem RoutesEvent.edits (h : m.RoutesEvent process event m') (hs : Sound m) : Edits m m' := by
  cases h with
  | simple h => exact h ▸ .refl hs
  | wired _ _ _ hdecl _ hs₁ hread hs₂ hr hs₃ hconn hs₄ hsettle =>
    exact ((((hdecl.edits hs₁).trans (hread.edits hs₂)).trans (hr.edits hs₃)).trans
      (hconn.edits hs₄)).trans (hsettle.inlines.edits hs₄)

theorem RoutesEvents.edits {vs : List ValueId} (h : RoutesEvents process vs m m') (hs : Sound m) :
    Edits m m' := by
  induction h with
  | nil => exact .refl hs
  | cons h _ ih =>
    have h₁ := h.edits hs
    exact h₁.trans (ih h₁.sound)

theorem RoutesEvents.live {vs : List ValueId} {j : NodeId} {n : Node}
    (h : RoutesEvents process vs m m') (hj : m.live? j = some n) :
    ∃ n', m'.live? j = some n' ∧ n'.op = n.op ∧ n'.results = n.results ∧
      (n.op.isAlwaysInline = false → n'.parent = n.parent) := by
  induction h generalizing n with
  | nil => exact ⟨n, hj, rfl, rfl, fun _ => rfl⟩
  | cons h _ ih =>
    obtain ⟨n₁, hn₁, hop₁, hr₁, hp₁⟩ := h.live hj
    obtain ⟨n₂, hn₂, hop₂, hr₂, hp₂⟩ := ih hn₁
    exact ⟨n₂, hn₂, hop₂.trans hop₁, hr₂.trans hr₁,
      fun hi => (hp₂ (hop₁ ▸ hi)).trans (hp₁ hi)⟩

theorem RoutesEvent.usable {v : ValueId} (h : m.RoutesEvent process event m') (hv : m.Usable v) :
    m'.Usable v :=
  hv.mono h.kept fun hj => by
    obtain ⟨n', hj', -⟩ := h.live hj
    exact ⟨n', hj'⟩

end Module

namespace Prep

variable {env : Env} {s s' : State} {process : NodeId} {event : ValueId} {n : Node} {r : Unit}

theorem routeEvent_runs (ho : env.oracle = .systemVerilog) (hs : Sound s.module)
    (hp : s.module.live? process = some n) (hevent : s.module.Usable event)
    (h : (routeEvent process event).Runs env s r s') :
    s.module.RoutesEvent process event s'.module := by
  obtain ⟨nd, hnd, -, rfl⟩ := Module.exists_of_live? hp
  obtain ⟨simple, s₁, hsimple, h⟩ := runs_bind.1 h
  obtain ⟨hsimple, rfl⟩ := runs_query.1 hsimple
  cases simple with
  | true =>
    obtain ⟨-, rfl⟩ := runs_pure.1 h
    exact .simple rfl
  | false =>
    obtain ⟨op, s₁, hop, h⟩ := runs_bind.1 h
    obtain ⟨hop, rfl⟩ := runs_query.1 hop
    split at h
    · obtain ⟨-, rfl⟩ := runs_pure.1 h
      exact .simple rfl
    · obtain ⟨d, hd, hlive⟩ := hevent
      simp only [runs_bind, runs_query, runs_node, runs_edit, runs_count, valueType_eq_ok_iff] at h
      obtain ⟨body, _, ⟨hbody, rfl⟩, nd', _, ⟨hnd', rfl⟩, type, _, ⟨htype, rfl⟩, ⟨decl, storage⟩, s₁,
        hdecl, ⟨read, value⟩, s₂, hread, _, _, ⟨m₃, hm₃, rfl⟩, conn, s₄, hconn, _, s₅, hsettle,
        rfl⟩ := h
      obtain rfl : nd = nd' := by simpa using hnd.symm.trans hnd'
      cases hbody
      obtain ⟨vtype, stype, hvtype, hstype, hc₁, hs₁⟩ := declareFor_runs hs
        (p := .front s.module.body) (b := s.module.body) rfl .body rfl hdecl
      obtain rfl := Option.some.inj (hvtype.symm.trans htype)
      have hstorage : s₁.module.Usable storage := hc₁.usable_result (i := 0) rfl
      have hp₁ := hc₁.live hp
      obtain ⟨hc₂, hs₂⟩ := create_runs hs₁ (hs₁.in_before hp₁) (hs₁.placed hp₁) rfl
        (by simpa using hstorage) hread
      obtain ⟨hr, hs₃⟩ := hs₂.replaceUses (hc₂.usable_result (i := 0) rfl) hm₃
      have hp₃ := hr.live (hc₂.live hp₁)
      have husable : s.module.Usable event := ⟨d, hd, hlive⟩
      obtain ⟨hc₄, hs₄⟩ := createStatement_runs (s := { s₂ with module := m₃ }) hs₃
        (hs₃.in_before hp₃) (hs₃.placed hp₃) rfl
        (by simpa using ⟨hr.usable (hc₂.usable hstorage),
          hr.usable (hc₂.usable (hc₁.usable husable))⟩) hconn
      have hin : IsInline s₄.module read :=
        ⟨_, Module.core_of_live? (hc₄.live (hr.live hc₂.live?_self)), rfl⟩
      have hinlines := inlineEverywhere_runs ho hs₄ hin hsettle
      cases d with
      | port i =>
        -- A port would have been found simple.
        have hnone : s.module.definingNode? event = .ok none :=
          Module.definingNode?_eq_none_iff.2 ⟨i, hd⟩
        simp [Module.isSimpleReadOrPort, hnone, bind, Except.bind, pure, Except.pure] at hsimple
      | result d i => exact .wired hp hd htype hc₁ hstype hs₁ hc₂ hs₂ hr hs₃ hc₄ hs₄ hinlines

theorem routeEvents_runs (ho : env.oracle = .systemVerilog) {events : List ValueId}
    (hs : Sound s.module) (hp : s.module.live? process = some n)
    (hevents : ∀ v ∈ events, s.module.Usable v)
    (h : (events.forM (routeEvent process)).Runs env s r s') :
    s.module.RoutesEvents process events s'.module := by
  induction events generalizing s n with
  | nil =>
    obtain rfl := runs_forM_nil.1 h
    exact .nil _
  | cons event events ih =>
    obtain ⟨s₁, h₁, h₂⟩ := runs_forM_cons.1 h
    have hroute := routeEvent_runs ho hs hp (hevents event (by simp)) h₁
    obtain ⟨n', hp', -⟩ := hroute.live hp
    exact .cons hroute (ih (hroute.sound hs) hp'
      (fun v hv => hroute.usable (hevents v (List.mem_cons_of_mem _ hv))) h₂)

end Prep

end NetPrep
