import Mathlib
import NetPrep.Proofs.Closed
import NetPrep.Proofs.Renaming

/-!
# Runs that differ in names only

The table of names is shared between the modules of a design, so what a temporary is numbered as
depends on the modules prepared before. `Alike` relates two states that differ in this alone: the
nodes of one are called by the names that the texts of the names in the other have. `Blind` says of a
step that from states that are alike it answers the same, fails the same way, and leaves states that
are alike.
-/

namespace NetPrep

open Prepare

/-! ## Names with the same text -/

namespace NameTable

/-- The name that the text of a name has in another table. -/
def translate (s t : NameTable) (name : Name) : Option Name :=
  (s.resolve name).toOption.bind t.find?

theorem translate_eq_some_iff {s t : NameTable} {a b : Name} :
    s.translate t a = some b ↔ ∃ text, s.resolve a = .ok text ∧ t.resolve b = .ok text := by
  unfold translate
  cases h : s.resolve a with
  | error e => simp [Except.toOption]
  | ok text => simp [Except.toOption, find?_eq_some_iff]

/-- Two optional names of two tables: none of both, or the same text behind both. -/
structure SameText (s t : NameTable) (a b : Option Name) : Prop where
  right : b = a.bind (s.translate t)
  left : a = b.bind (t.translate s)

namespace SameText

variable {s t s' t' : NameTable} {a b : Option Name}

theorem none (s t : NameTable) : SameText s t none none := ⟨rfl, rfl⟩

theorem some {x y : Name} {text : String} (hx : s.resolve x = .ok text)
    (hy : t.resolve y = .ok text) : SameText s t (some x) (some y) :=
  ⟨(translate_eq_some_iff.2 ⟨text, hx, hy⟩).symm, (translate_eq_some_iff.2 ⟨text, hy, hx⟩).symm⟩

theorem cases (h : SameText s t a b) : (a = .none ∧ b = .none) ∨
    ∃ x y text, a = .some x ∧ b = .some y ∧ s.resolve x = .ok text ∧ t.resolve y = .ok text := by
  obtain ⟨hright, hleft⟩ := h
  cases a with
  | none => exact Or.inl ⟨rfl, hright⟩
  | some x =>
    cases b with
    | none => cases hleft
    | some y =>
      obtain ⟨text, hx, hy⟩ := translate_eq_some_iff.1 hright.symm
      exact Or.inr ⟨x, y, text, rfl, rfl, hx, hy⟩

theorem mono (h : SameText s t a b) (hs : s.Within s') (ht : t.Within t') : SameText s' t' a b := by
  obtain ⟨rfl, rfl⟩ | ⟨x, y, text, rfl, rfl, hx, hy⟩ := h.cases
  · exact .none s' t'
  · exact .some (hs _ _ hx) (ht _ _ hy)

end SameText

end NameTable

/-! ## States that are alike -/

/-- Two states of the preparation of one module that differ in the names of nodes only, and a table
that knows all other names. -/
structure Alike (base : Origin) (s t : State) : Prop where
  right : t.module = s.module.rename (s.names.translate t.names)
  left : s.module = t.module.rename (t.names.translate s.names)
  stats : t.stats = s.stats
  inherits : base.Within s.names
  inherits' : base.Within t.names
  closed : s.module.Closed base

/-- Two states that are alike and come after two others. -/
structure Later (base : Origin) (s t s' t' : State) : Prop where
  alike : Alike base s' t'
  grows : s.names.Within s'.names
  grows' : t.names.Within t'.names

namespace Alike

variable {base : Origin} {s t : State}

theorem later (h : Alike base s t) : Later base s t s t := ⟨h, .refl _, .refl _⟩

/-- The nodes of one place are alike but for names with the same text. -/
theorem node (h : Alike base s t) {id : NodeId} {n : Node} (hn : s.module.node id = .ok n) :
    ∃ n', t.module.node id = .ok n' ∧ n' = n.rename (s.names.translate t.names) ∧
      s.names.SameText t.names n.name n'.name := by
  have hright : (s.module.rename (s.names.translate t.names)).node id = _ :=
    Module.node_recast _ s.module id
  have hleft : (t.module.rename (t.names.translate s.names)).node id = _ :=
    Module.node_recast _ t.module id
  rw [← h.right, hn] at hright
  rw [← h.left, hn, hright] at hleft
  exact ⟨_, hright, rfl, rfl, congrArg Node.name (Except.ok.inj hleft)⟩

/-- What a question that does not look at the names of nodes is answered. -/
theorem query_eq (h : Alike base s t) {α : Type} {q : Module → Except Fault α}
    (hq : ∀ ρ m, q (m.rename ρ) = q m) : q t.module = q s.module := by
  rw [h.right, hq]

theorem closed_node (h : Alike base s t) {id : NodeId} {n : Node}
    (hn : s.module.node id = .ok n) : n.op.Closed base ∧ n.loc.Closed base := by
  refine h.closed.node n ?_
  unfold Module.node at hn
  split at hn
  · next n' hget =>
    cases hn
    exact Array.mem_toList_iff.2 (Array.mem_of_getElem? hget)
  · cases hn

/-- More names make no difference. -/
theorem grow (h : Alike base s t) {names names' : NameTable} (hs : s.names.Within names)
    (ht : t.names.Within names') : Alike base { s with names } { t with names := names' } := by
  have hrename : ∀ {m m' : Module} {a b a' b' : NameTable}, m' = m.rename (a.translate b) →
      m = m'.rename (b.translate a) → a.Within a' → b.Within b' →
      m' = m.rename (a'.translate b') := by
    intro m m' a b a' b' hright hleft ha hb
    have hnodes : m.nodes.map (Node.recast (.rename (a.translate b))) =
        m.nodes.map (Node.recast (.rename (a'.translate b'))) := by
      refine Array.map_congr_left fun n hn => ?_
      have hname : n.name = (n.name.bind (a.translate b)).bind (b.translate a) := by
        rw [hright] at hleft
        have hmem := congrArg Module.nodes hleft
        obtain ⟨i, hi, rfl⟩ := Array.mem_iff_getElem.1 hn
        have hget := congrArg (fun nodes : Array Node => nodes[i]?.map (·.name)) hmem
        simpa [Module.recast, Node.recast, Recast.rename, hi] using hget
      have hsame : NameTable.SameText a b n.name (n.name.bind (a.translate b)) := ⟨rfl, hname⟩
      have := (hsame.mono ha hb).right
      simp only [Node.recast, Recast.rename, this]
    rw [hright]
    unfold Module.rename Module.recast
    rw [hnodes]
    rfl
  exact ⟨hrename h.right h.left hs ht, hrename h.left h.right ht hs, h.stats,
    h.inherits.trans hs, h.inherits'.trans ht, h.closed⟩

end Alike

theorem Later.trans {base : Origin} {s t s' t' s'' t'' : State} (h : Later base s t s' t')
    (h' : Later base s' t' s'' t'') : Later base s t s'' t'' :=
  ⟨h'.alike, h.grows.trans h'.grows, h.grows'.trans h'.grows'⟩

/-! ## Steps that agree -/

namespace Prep

/-- Two runs end alike: with the same fault, with the same failure, or with results that are
related. -/
inductive EndAlike (base : Origin) (s t : State) {α β : Type}
    (R : State → State → α → β → Prop) : Except Fault (Except Failure α × State) →
      Except Fault (Except Failure β × State) → Prop
  | fault (e : Fault) : EndAlike base s t R (.error e) (.error e)
  | fail {f : Failure} {s' t' : State} (hf : f.loc.Closed base) (h : Later base s t s' t') :
    EndAlike base s t R (.ok (.error f, s')) (.ok (.error f, t'))
  | done {a : α} {b : β} {s' t' : State} (h : Later base s t s' t') (hr : R s' t' a b) :
    EndAlike base s t R (.ok (.ok a, s')) (.ok (.ok b, t'))

variable {α β α' β' : Type} {base : Origin} {env : Env} {s t : State}

/-- Two steps, each from a state of its own, end alike. -/
def Agrees (base : Origin) (env : Env) (s t : State) (R : State → State → α → β → Prop)
    (x : Prep α) (y : Prep β) : Prop := EndAlike base s t R (x env s) (y env t)

/-- A step that does not depend on how the nodes are called. -/
structure Blind (base : Origin) (x : Prep α) : Prop where
  agrees : ∀ {env s t}, env.oracle = .systemVerilog → Alike base s t →
    Agrees base env s t (fun _ _ a b => b = a) x x

namespace Agrees

theorem pure {R : State → State → α → β → Prop} {a : α} {b : β} (h : Alike base s t)
    (hr : R s t a b) : Agrees base env s t R (pure a) (pure b) := .done h.later hr

theorem bind {R : State → State → α → β → Prop} {R' : State → State → α' → β' → Prop}
    {x : Prep α} {y : Prep β} {f : α → Prep α'} {g : β → Prep β'} (hx : Agrees base env s t R x y)
    (hf : ∀ a b s' t', Later base s t s' t' → R s' t' a b → Agrees base env s' t' R' (f a) (g b)) :
    Agrees base env s t R' (x >>= f) (y >>= g) := by
  change EndAlike base s t R' (x env s >>= fun r => ExceptT.bindCont (fun a => f a env) r.1 r.2)
    (y env t >>= fun r => ExceptT.bindCont (fun b => g b env) r.1 r.2)
  unfold Agrees at hx
  generalize x env s = p at hx
  generalize y env t = q at hx
  cases hx with
  | fault e => exact .fault e
  | fail hf h => exact .fail hf h
  | @done a b s' t' h hr =>
    have hfg := hf a b s' t' h hr
    unfold Agrees at hfg
    change EndAlike base s t R' (f a env s') (g b env t')
    generalize f a env s' = p at hfg
    generalize g b env t' = q at hfg
    cases hfg with
    | fault e => exact .fault e
    | fail hf h' => exact .fail hf (h.trans h')
    | done h' hr' => exact .done (h.trans h') hr'

/-- A step that is blind, and what comes after it. -/
theorem after {R : State → State → α' → β' → Prop} {x : Prep α} {f : α → Prep α'} {g : α → Prep β'}
    (ho : env.oracle = .systemVerilog) (h : Alike base s t) (hx : Blind base x)
    (hf : ∀ a s' t', Later base s t s' t' → Agrees base env s' t' R (f a) (g a)) :
    Agrees base env s t R (x >>= f) (x >>= g) :=
  (hx.agrees ho h).bind fun a b s' t' hl hr => by
    subst hr
    exact hf b s' t' hl

/-- Looking at a node, of which only the name may differ. -/
theorem node (h : Alike base s t) (id : NodeId) :
    Agrees base env s t (fun s t n n' => n' = n.rename (s.names.translate t.names) ∧
      s.names.SameText t.names n.name n'.name ∧ n.op.Closed base ∧ n.loc.Closed base)
      (Prep.node id) (Prep.node id) := by
  unfold Agrees Prep.node query
  cases hn : s.module.node id with
  | error e =>
    have hright : (s.module.rename (s.names.translate t.names)).node id = _ :=
      Module.node_recast _ s.module id
    rw [← h.right, hn] at hright
    simp only [hn, hright]
    exact .fault e
  | ok n =>
    obtain ⟨n', hn', heq, htext⟩ := h.node hn
    simp only [hn, hn']
    exact .done h.later ⟨heq, htext, h.closed_node hn⟩

/-- Reading the text of two names that have the same. -/
theorem resolve (h : Alike base s t) {a b : Name} {text : String}
    (ha : s.names.resolve a = .ok text) (hb : t.names.resolve b = .ok text) :
    Agrees base env s t (fun _ _ a b => b = a) (Prep.resolve a) (Prep.resolve b) := by
  unfold Agrees Prep.resolve
  rw [ha, hb]
  exact .done h.later rfl

/-- The name of a new text may differ. -/
theorem intern (h : Alike base s t) (text : String) :
    Agrees base env s t (fun s t a b => s.names.SameText t.names (some a) (some b))
      (Prep.intern text) (Prep.intern text) :=
  .done ⟨h.grow (NameTable.within_intern _ text) (NameTable.within_intern _ text),
    NameTable.within_intern _ text, NameTable.within_intern _ text⟩
    (.some (NameTable.resolve_intern _ text) (NameTable.resolve_intern _ text))

/-- Edits that correspond to each other. -/
theorem editWith {e e' : Module → Except Fault (α × Module)} (h : Alike base s t)
    (hright : e' t.module =
      (e s.module).map fun (a, m) => (a, m.rename (s.names.translate t.names)))
    (hleft : e s.module =
      (e' t.module).map fun (a, m) => (a, m.rename (t.names.translate s.names)))
    (hclosed : ∀ a m, e s.module = .ok (a, m) → m.Closed base) :
    Agrees base env s t (fun _ _ a b => b = a) (Prep.editWith e) (Prep.editWith e') := by
  obtain ⟨m, names, stats⟩ := s
  obtain ⟨m', names', stats'⟩ := t
  unfold Agrees Prep.editWith
  dsimp only at hright hleft hclosed ⊢
  cases hm : e m with
  | error f =>
    rw [hm] at hright
    rw [hright]
    exact .fault f
  | ok r =>
    obtain ⟨a, m₁⟩ := r
    rw [hm] at hright hleft
    rw [hright] at hleft ⊢
    exact .done ⟨⟨rfl, congrArg Prod.snd (Except.ok.inj hleft), h.stats, h.inherits, h.inherits',
      hclosed a m₁ hm⟩, .refl _, .refl _⟩ rfl

/-- An edit without a result is one with the empty result. -/
theorem edit_eq (f : Module → Except Fault Module) :
    edit f = Prep.editWith fun m => (f m).map fun m => ((), m) := by
  funext env ⟨m, names, stats⟩
  unfold edit Prep.editWith
  cases h : f m <;> simp only [h, Except.map]

theorem edit {e e' : Module → Except Fault Module} (h : Alike base s t)
    (hright : e' t.module = (e s.module).map (·.rename (s.names.translate t.names)))
    (hleft : e s.module = (e' t.module).map (·.rename (t.names.translate s.names)))
    (hclosed : e (s.module.recast (.blank base s.module)) =
      (e s.module).map (·.recast (.blank base s.module))) :
    Agrees base env s t (fun _ _ a b => b = a) (Prep.edit e) (Prep.edit e') := by
  rw [edit_eq, edit_eq]
  refine editWith h ?_ ?_ fun a m hm =>
    h.closed.edit (f := fun m => (e m).map fun m => ((), m)) ?_ hm
  · rw [hright]
    cases e s.module <;> rfl
  · rw [hleft]
    cases e' t.module <;> rfl
  · rw [hclosed]
    cases e s.module <;> rfl

/-- Naming a node by names of the same text. -/
theorem setName (h : Alike base s t) {a b : Option Name} (id : NodeId)
    (hab : s.names.SameText t.names a b) : Agrees base env s t (fun _ _ a b => b = a)
      (Prep.edit (·.setName id a)) (Prep.edit (·.setName id b)) := by
  have hright := Module.setName_recast (.rename (s.names.translate t.names)) s.module id a
  have hleft := Module.setName_recast (.rename (t.names.translate s.names)) t.module id b
  refine edit h ?_ ?_ (Module.setName_recast _ s.module id a)
  · rw [← hright]
    simp only [Recast.rename, ← hab.right]
    rw [h.right]
    rfl
  · rw [← hleft]
    simp only [Recast.rename, ← hab.left]
    rw [h.left]
    rfl

end Agrees

namespace Blind

theorem pure (a : α) : Blind base (pure a : Prep α) := ⟨fun _ h => .pure h rfl⟩

theorem fault (f : Fault) : Blind base (fault f : Prep α) := ⟨fun _ _ => .fault f⟩

theorem fail {f : Failure} (hf : f.loc.Closed base) : Blind base (fail f : Prep α) :=
  ⟨fun _ h => .fail hf h.later⟩

theorem bind {x : Prep α} {f : α → Prep β} (hx : Blind base x) (hf : ∀ a, Blind base (f a)) :
    Blind base (x >>= f) :=
  ⟨fun ho h => .after ho h hx fun a _ _ hl => (hf a).agrees ho hl.alike⟩

theorem ite {c : Prop} [Decidable c] {x y : Prep α} (hx : Blind base x) (hy : Blind base y) :
    Blind base (if c then x else y) := by
  split <;> assumption

theorem options : Blind base options := ⟨fun _ h => .done h.later rfl⟩

theorem fuel : Blind base fuel := ⟨fun _ h => .done h.later rfl⟩

theorem moduleName : Blind base moduleName := ⟨fun _ h => .done h.later rfl⟩

theorem count (f : Stats → Stats) : Blind base (count f) where
  agrees _ h := .done ⟨⟨h.right, h.left, congrArg f h.stats, h.inherits, h.inherits', h.closed⟩,
    .refl _, .refl _⟩ rfl

/-- A question that does not look at the names of nodes, and what comes after an answer that the
module can give. -/
theorem ask {q : Module → Except Fault α} {f : α → Prep β} (hq : ∀ ρ m, q (m.rename ρ) = q m)
    (hf : ∀ a m, m.Closed base → q m = .ok a → Blind base (f a)) :
    Blind base (query q >>= f) := by
  refine ⟨fun {env s t} ho h => ?_⟩
  have hquery : Agrees base env s t (fun s' _ a b => s'.module.Closed base ∧ q s'.module = .ok a ∧
      b = a) (Prep.query q) (Prep.query q) := by
    unfold Agrees Prep.query
    rw [h.query_eq hq]
    cases hs : q s.module with
    | error e => exact .fault e
    | ok a => exact .done h.later ⟨h.closed, hs, rfl⟩
  refine hquery.bind fun a b s' t' hl hr => ?_
  obtain ⟨hclosed, ha, rfl⟩ := hr
  exact (hf b s'.module hclosed ha).agrees ho hl.alike

theorem query {q : Module → Except Fault α} (hq : ∀ ρ m, q (m.rename ρ) = q m) :
    Blind base (query q) := by
  refine ⟨fun _ h => ?_⟩
  unfold Agrees Prep.query
  rw [h.query_eq hq]
  split
  · exact .done h.later rfl
  · exact .fault _

/-- Looking at a node without its name. -/
theorem node {f : Node → Prep β} (id : NodeId) (hname : ∀ ρ (n : Node), f (n.rename ρ) = f n)
    (hf : ∀ n : Node, n.op.Closed base → n.loc.Closed base → Blind base (f n)) :
    Blind base (node id >>= f) := by
  refine ⟨fun ho h => (Agrees.node h id).bind fun n n' s' t' hl hr => ?_⟩
  obtain ⟨rfl, -, hop, hloc⟩ := hr
  rw [hname]
  exact (hf n hop hloc).agrees ho hl.alike

theorem resolve {name : Name} (hn : base.Knows name) : Blind base (resolve name) := by
  refine ⟨fun _ h => ?_⟩
  obtain ⟨text, hn⟩ := hn
  exact .resolve h (h.inherits _ _ hn) (h.inherits' _ _ hn)

/-- An edit that does not look at the names of nodes and brings in no other names. -/
theorem edit {e : Module → Except Fault Module}
    (he : ∀ r : Recast, r.Fixes base → ∀ m, e (m.recast r) = (e m).map (·.recast r)) :
    Blind base (edit e) := by
  have hrename : ∀ ρ, (Recast.rename ρ).Fixes base := fun ρ => ⟨fun _ => rfl, fun _ => rfl⟩
  refine ⟨fun _ h => .edit h ?_ ?_ (he _ (Recast.fixes_blank base _) _)⟩
  · rw [← he _ (hrename _)]
    exact congrArg e h.right
  · rw [← he _ (hrename _)]
    exact congrArg e h.left

theorem editWith {e : Module → Except Fault (α × Module)}
    (he : ∀ r : Recast, r.Fixes base → ∀ m,
      e (m.recast r) = (e m).map fun (a, m) => (a, m.recast r)) : Blind base (editWith e) := by
  have hrename : ∀ ρ, (Recast.rename ρ).Fixes base := fun ρ => ⟨fun _ => rfl, fun _ => rfl⟩
  refine ⟨fun _ h => .editWith h ?_ ?_ fun a m hm =>
    h.closed.edit (he _ (Recast.fixes_blank base _) _) hm⟩
  · rw [← he _ (hrename _)]
    exact congrArg e h.right
  · rw [← he _ (hrename _)]
    exact congrArg e h.left

/-! ### Lists -/

theorem forM {f : α → Prep Unit} {l : List α} (hf : ∀ a ∈ l, Blind base (f a)) :
    Blind base (l.forM f) := by
  induction l with
  | nil => exact pure ()
  | cons a l ih =>
    exact (hf a List.mem_cons_self).bind fun _ => ih fun b hb => hf b (List.mem_cons_of_mem _ hb)

theorem foldlM {f : β → α → Prep β} {l : List α} (hf : ∀ b a, Blind base (f b a)) (b : β) :
    Blind base (l.foldlM f b) := by
  induction l generalizing b with
  | nil => exact pure b
  | cons a l ih => exact (hf b a).bind fun b => ih b

theorem mapM {f : α → Prep β} {l : List α} (hf : ∀ a ∈ l, Blind base (f a)) :
    Blind base (l.mapM f) := by
  induction l with
  | nil =>
    rw [List.mapM_nil]
    exact pure _
  | cons a l ih =>
    rw [List.mapM_cons]
    exact (hf a List.mem_cons_self).bind fun _ =>
      (ih fun b hb => hf b (List.mem_cons_of_mem _ hb)).bind fun _ => pure _

theorem filterM {f : α → Prep Bool} {l : List α} (hf : ∀ a, Blind base (f a)) :
    Blind base (l.filterM f) := by
  have haux : ∀ kept, Blind base (l.filterAuxM f kept) := by
    induction l with
    | nil => exact fun kept => pure kept
    | cons a l ih => exact fun kept => (hf a).bind fun _ => ih _
  exact (haux []).bind fun _ => pure _

end Blind

end Prep

end NetPrep
