import Mathlib
import NetPrep.Proofs.Answers
import NetPrep.Proofs.Checking
import NetPrep.Proofs.Deciding
import NetPrep.Proofs.Passes

/-!
# Expressions of bounded size

What making a module readable is for: in the graph blocks that are reached from the body through graph
blocks only, an expression is exempt from having a temporary, or it has no more terms than the options
allow, and its name needs no declaration. Sizes are remembered while the module changes. That is sound
because no step adds terms, and what has been found to be small, or exempt, stays so.
-/

namespace NetPrep

open Prepare Prep

namespace Module

variable {m m' : Module} {b c : BlockId} {id : NodeId} {n : Node} {f f' : ValueId → Nat}
  {names names' : NameTable} {o : Options}

/-- A graph block that is another one, or nested in it with only graph blocks in between. -/
inductive GraphReaches (m : Module) : BlockId → BlockId → Prop
  | self {b : BlockId} (hk : m.kind? b = some .graph) : m.GraphReaches b b
  | region {id : NodeId} {n : Node} {b c : BlockId} (hk : m.kind? n.parent = some .graph)
      (hn : m.live? id = some n) (hb : b ∈ n.regions) (h : m.GraphReaches b c) :
      m.GraphReaches n.parent c

theorem GraphReaches.graph (h : m.GraphReaches b c) : m.kind? b = some .graph := by
  cases h with
  | self hk => exact hk
  | region hk _ _ _ => exact hk

theorem GraphReaches.sameTree (h : m.GraphReaches b c) (ht : m.SameTree m')
    (hk : ∀ b, m'.kind? b = m.kind? b) : m'.GraphReaches b c := by
  induction h with
  | self hb => exact .self ((hk _).trans hb)
  | region hb hn hc _ ih =>
    obtain ⟨n', hn', -, hregions, hparent⟩ := ht.owner hn (List.ne_nil_of_mem hc)
    rw [← hparent] at hb ⊢
    exact .region ((hk _).trans hb) hn' (hregions ▸ hc) ih

theorem Edits.graphReaches_iff (h : Edits m m') : m'.GraphReaches b c ↔ m.GraphReaches b c :=
  ⟨fun hr => hr.sameTree h.sameTree.symm fun _ => (h.kept.kind? _).symm,
    fun hr => hr.sameTree h.sameTree h.kept.kind?⟩

/-- An expression that may stay as it is: it is exempt, or its number of terms is within the limit and
its name needs no declaration. -/
def IsTidy (m : Module) (names : NameTable) (o : Options) (f : ValueId → Nat) (n : Node) : Prop :=
  m.IsExempt n ∨ ∃ v, n.results = [v] ∧ f v ≤ o.maximumTerms ∧ AllowsName o names n.name (f v)

end Module

namespace Prep

/-- A name that is allowed for an expression is allowed for a smaller one. -/
theorem AllowsName.mono {o : Options} {names names' : NameTable} {name : Option Name}
    {terms terms' : Nat} (h : AllowsName o names name terms) (hnames : names.Within names')
    (hle : terms' ≤ terms) : AllowsName o names' name terms' := by
  intro hon hint hname
  obtain ⟨text, htext, hbegins, hlt⟩ := h hon hint hname
  exact ⟨text, hnames _ _ htext, hbegins, hle.trans_lt hlt⟩

variable {o : Options} {m₀ : Module} {done done' : NodeId → Prop} {env : Env} {s s' : State}
  {memo memo' : CostMemo} {id : NodeId} {n : Node}

/-- What holds of a module while it is made readable. -/
structure Tidied (o : Options) (m₀ : Module) (done : NodeId → Prop) (s : State)
    (memo : CostMemo) : Prop where
  edits : m₀.Edits s.module
  single : s.module.SingleResults
  wellFounded : WellFounded s.module.Feeds
  live : ∀ {id n}, m₀.live? id = some n →
    ∃ n', s.module.live? id = some n' ∧ n'.parent = n.parent ∧ n'.regions = n.regions
  /-- The only new expressions are reads. -/
  back : ∀ {id n'}, s.module.live? id = some n' → n'.op.isExpression = true →
    (∃ n, m₀.live? id = some n) ∨ n'.op = .read
  memo : ∀ {f}, s.module.CountsTerms f → CostMemo.Bounds s.module f memo
  /-- What the pass has gone through is tidy. -/
  tidy : ∀ {f id n}, s.module.CountsTerms f → done id → s.module.live? id = some n →
    n.op.isExpression = true → s.module.IsTidy s.names o f n

namespace Tidied

theorem mono (h : Tidied o m₀ done s memo) (hle : ∀ j, done' j → done j) :
    Tidied o m₀ done' s memo :=
  { h with tidy := fun hf hd => h.tidy hf (hle _ hd) }

/-- The state itself can be where the comparison starts. -/
theorem rebase (h : Tidied o m₀ done s memo) : Tidied o s.module done s memo :=
  { h with
    edits := .refl h.edits.sound
    live := fun hn => ⟨_, hn, rfl, rfl⟩
    back := fun hn _ => Or.inl ⟨_, hn⟩ }

theorem trans (h : Tidied o m₀ done s memo) (h' : Tidied o s.module done' s' memo') :
    Tidied o m₀ done' s' memo' :=
  { h' with
    edits := h.edits.trans h'.edits
    live := fun hn => by
      obtain ⟨n₁, hn₁, hparent, hregions⟩ := h.live hn
      obtain ⟨n₂, hn₂, hparent', hregions'⟩ := h'.live hn₁
      exact ⟨n₂, hn₂, hparent'.trans hparent, hregions'.trans hregions⟩
    back := fun {id n'} hn hop => by
      obtain ⟨n₁, hn₁⟩ | hread := h'.back hn hop
      · obtain ⟨n₂, hn₂, hop₂, -⟩ := h'.edits.kept.node (Module.core_of_live? hn₁)
        obtain rfl := Option.some.inj (hn₂.symm.trans (Module.core_of_live? hn))
        exact (h.back hn₁ (hop₂ ▸ hop)).imp_right hop₂.trans
      · exact Or.inr hread }

/-- The sizes of more values are known. -/
theorem remember (h : Tidied o m₀ done s memo)
    (hmemo : ∀ {f}, s.module.CountsTerms f → CostMemo.Bounds s.module f memo') :
    Tidied o m₀ done s memo' :=
  { h with memo := hmemo }

/-- One more node is found to be tidy. -/
theorem insert (h : Tidied o m₀ done s memo)
    (hid : ∀ {f n}, s.module.CountsTerms f → s.module.live? id = some n →
      n.op.isExpression = true → s.module.IsTidy s.names o f n) :
    Tidied o m₀ (fun j => done j ∨ j = id) s memo :=
  { h with
    tidy := fun hf hd hn hop => by
      obtain hd | rfl := hd
      · exact h.tidy hf hd hn hop
      · exact hid hf hn hop }

/-- An expression gets a temporary. -/
theorem spill {v : ValueId} {r : Unit} (h : Tidied o m₀ done s memo)
    (hn : s.module.live? id = some n) (hop : n.op.isExpression = true) (hresults : n.results = [v])
    (hrun : (Prep.spill id false).Runs env s r s') :
    Tidied o m₀ (fun j => done j ∨ j = id) s' memo := by
  have hs := h.edits.sound
  have hspills := spill_runs hs hn hrun
  have hd := hspills.detours hs hn hresults
  have hnames := (Widens.spill id false).within hrun
  obtain ⟨f, hf⟩ := Module.exists_countsTerms hs.toWellFormed h.wellFounded
  have hterms : ∀ {f' w}, s'.module.CountsTerms f' → s.module.Usable w → f' w ≤ f w :=
    fun hf' hw => hd.lessens.terms h.wellFounded hf hf' hw
  have hread : ∀ {j n'}, s'.module.live? j = some n' → n'.op.isExpression = true →
      (∃ n, s.module.live? j = some n) ∨ n'.op = .read ∧ n'.results.length = 1 := fun hj he =>
    (hd.back hj).imp_right fun hnew => hnew.2 he
  refine ⟨h.edits.trans (hspills.edits hs), fun {j n'} hj he => ?_, hd.lessens.wellFounded h.wellFounded,
    fun hj => ?_, fun {j n'} hj he => ?_, fun hf' w size hget => ?_, fun {f' j n'} hf' hdone hj he => ?_⟩
  · obtain ⟨nj, hnj⟩ | ⟨-, hone⟩ := hread hj he
    · obtain ⟨n₁, hn₁, hop₁, hresults₁, -⟩ := hd.live hnj
      obtain rfl := Option.some.inj (hn₁.symm.trans hj)
      exact hresults₁ ▸ h.single hnj (hop₁ ▸ he)
    · exact hone.le
  · obtain ⟨n₁, hn₁, hparent, hregions⟩ := h.live hj
    obtain ⟨n₂, hn₂, -, -, hparent', hregions', -⟩ := hd.live hn₁
    exact ⟨n₂, hn₂, hparent'.trans hparent, hregions'.trans hregions⟩
  · obtain ⟨nj, hnj⟩ | ⟨hread, -⟩ := hread hj he
    · obtain ⟨n₁, hn₁, hop₁, -⟩ := hd.live hnj
      obtain rfl := Option.some.inj (hn₁.symm.trans hj)
      exact (h.back hnj (hop₁ ▸ he)).imp_right hop₁.trans
    · exact Or.inr hread
  · obtain ⟨hw, hle⟩ := h.memo hf w size hget
    exact ⟨hd.lessens.usable hw, (hterms hf' hw).trans hle⟩
  · obtain ⟨nj, hnj⟩ | ⟨hread, -⟩ := hread hj he
    · obtain ⟨n₁, hn₁, hop₁, hresults₁, -, -, hname⟩ := hd.live hnj
      obtain rfl := Option.some.inj (hn₁.symm.trans hj)
      by_cases hji : j = id
      · subst hji
        obtain rfl := Option.some.inj (hnj.symm.trans hn)
        refine Or.inl (Or.inr (Or.inr (Or.inr ⟨v, ?_, Or.inr (Or.inl hd.named)⟩)))
        rw [hresults₁, hresults]
        exact List.mem_singleton_self v
      · obtain hexempt | ⟨w, hw, hle, hallows⟩ :=
          h.tidy hf (hdone.resolve_right hji) hnj (hop₁ ▸ he)
        · exact Or.inl (hd.isExempt hs hnj hop₁ hresults₁ hexempt)
        · have husable := hs.usable_of_mem_results hnj (hw ▸ List.mem_singleton_self w)
          refine Or.inr ⟨w, hresults₁.trans hw, (hterms hf' husable).trans hle, ?_⟩
          rw [hname hji]
          exact hallows.mono hnames (hterms hf' husable)
    · exact Or.inl (Or.inr (Or.inl hread))

/-- What every step over a list finishes is finished after all of them. -/
theorem foldlM {α : Type} {g : CostMemo → α → Prep CostMemo} {p : α → NodeId → Prop}
    {l : List α} (h : Tidied o m₀ done s memo)
    (hg : ∀ a ∈ l, ∀ {done s s' memo memo'}, Tidied o m₀ done s memo →
      (g memo a).Runs env s memo' s' → Tidied o m₀ (fun j => done j ∨ p a j) s' memo')
    (hrun : (l.foldlM g memo).Runs env s memo' s') :
    Tidied o m₀ (fun j => done j ∨ ∃ a ∈ l, p a j) s' memo' := by
  induction l generalizing done s memo with
  | nil =>
    obtain ⟨rfl, rfl⟩ := runs_pure.1 hrun
    exact h.mono fun j hj => hj.resolve_right fun ⟨a, ha, _⟩ => List.not_mem_nil ha
  | cons a l ih =>
    obtain ⟨memo₁, s₁, h₁, hrest⟩ := runs_bind.1 hrun
    have h₁ := hg a List.mem_cons_self h h₁
    refine (ih h₁ (fun c hc => hg c (List.mem_cons_of_mem _ hc)) hrest).mono fun j hj => ?_
    simp only [List.mem_cons, exists_eq_or_imp] at hj
    exact or_assoc.2 hj

theorem prettifyNode (ho : env.oracle = .systemVerilog) (h : Tidied env.options m₀ done s memo)
    (hrun : (prettifyNode memo id).Runs env s memo' s') :
    Tidied env.options m₀ (fun j => done j ∨ j = id) s' memo' := by
  have hs := h.edits.sound
  obtain ⟨rfl, rfl, hno⟩ | ⟨n, wanted, hn, hop, hwanted, hdo⟩ := prettifyNode_cases ho hrun
  · refine h.insert fun _ hn hop => ?_
    exact absurd ((hno _ hn).symm.trans hop) Bool.false_ne_true
  · obtain ⟨rfl, rfl, hexempt⟩ | ⟨v, size, hresults, hcost, hleft⟩ :=
      shouldSpill_cases hs h.single hn hop hwanted
    · obtain ⟨-, rfl⟩ | ⟨hfalse, -⟩ := hdo
      · refine h.insert fun _ hn' _ => Or.inl ?_
        obtain rfl := Option.some.inj (hn.symm.trans hn')
        exact hexempt
      · cases hfalse
    · have hv := hs.usable_of_mem_results hn (hresults ▸ List.mem_singleton_self v)
      have hbounds : ∀ {f}, s.module.CountsTerms f →
          f v ≤ size ∧ CostMemo.Bounds s.module f memo' := fun hf =>
        CostMemo.cost_bounds hs.toWellFormed h.wellFounded hf hv (h.memo hf) hcost
      have h₁ := h.remember fun hf => (hbounds hf).2
      obtain ⟨hfalse, rfl⟩ | ⟨-, hspill⟩ := hdo
      · obtain ⟨hle, hallows⟩ := hleft hfalse
        refine h₁.insert fun hf hn' _ => Or.inr ?_
        obtain rfl := Option.some.inj (hn.symm.trans hn')
        have hterms := (hbounds hf).1
        exact ⟨v, hresults, hterms.trans hle, hallows.mono (.refl _) hterms⟩
      · exact h₁.spill hn hop hresults hspill

/-- The nodes that were in a block are found in it. -/
theorem mem_blockNodes {b : BlockId} {ids : List NodeId} (h : Tidied o m₀ done s memo)
    (hb : m₀.Placed b) (hids : s.module.blockNodes b = .ok ids) {nj : Node}
    (hj : m₀.live? id = some nj) (hp : nj.parent = b) : id ∈ ids := by
  have hs := h.edits.sound
  obtain rfl := Except.ok.inj ((hs.blockNodes_eq (h.edits.placed hb)).symm.trans hids)
  obtain ⟨n', hn', hparent, -⟩ := h.live hj
  exact hs.mem_nodesOf_iff.2 ⟨n', hn', hparent.trans hp⟩

theorem prettifyBlock (ho : env.oracle = .systemVerilog) {depth : Nat} {b : BlockId}
    (hb : m₀.Placed b) (h : Tidied env.options m₀ done s memo)
    (hrun : (prettifyBlock depth memo b).Runs env s memo' s') :
    Tidied env.options m₀ (fun j => done j ∨ ∃ n, m₀.live? j = some n ∧ m₀.GraphReaches b n.parent)
      s' memo' := by
  induction depth generalizing m₀ done s s' memo memo' b with
  | zero => exact absurd hrun runs_fault
  | succ depth ih =>
    obtain ⟨blk, s₁, hblk, hrun⟩ := runs_bind.1 hrun
    obtain ⟨hget, rfl⟩ := runs_query.1 hblk
    have hkind := block_isProcedural_iff (Module.block_eq_ok_iff.1 hget)
    rw [h.edits.kept.kind?] at hkind
    split at hrun
    · next hproc =>
      obtain ⟨rfl, rfl⟩ := runs_pure.1 hrun
      refine h.mono fun j hj => hj.resolve_right ?_
      rintro ⟨n, -, hreach⟩
      have hk := (hkind.1 hproc).symm.trans hreach.graph
      cases hk
    · obtain ⟨ids, s₁, hids, hrun⟩ := runs_bind.1 hrun
      obtain ⟨hlist, rfl⟩ := runs_query.1 hids
      obtain ⟨memo₁, s₁, hnodes, hrun⟩ := runs_bind.1 hrun
      obtain ⟨ids', s₂, hids', hrun⟩ := runs_bind.1 hrun
      obtain ⟨hlist', rfl⟩ := runs_query.1 hids'
      have h₁ := h.foldlM (p := fun a j => j = a)
        (fun a _ {_ _ _ _ _} h hrun => h.prettifyNode ho hrun) hnodes
      have he := h₁.edits
      have h₂ := h₁.rebase.foldlM (p := fun a j => ∃ na, s₁.module.live? a = some na ∧
        ∃ c ∈ na.regions, ∃ n, s₁.module.live? j = some n ∧ s₁.module.GraphReaches c n.parent) ?_ hrun
      · refine (h₁.trans h₂).mono fun j hj => ?_
        obtain hj | ⟨n, hn, hreach⟩ := hj
        · exact Or.inl (Or.inl hj)
        · cases hreach with
          | self => exact Or.inl (Or.inr ⟨j, h.mem_blockNodes hb hlist hn rfl, rfl⟩)
          | @region a na c _ _ hna hc hreach =>
            obtain ⟨na', hna', -, hregions⟩ := h₁.live hna
            obtain ⟨n', hn', hparent, -⟩ := h₁.live hn
            refine Or.inr ⟨a, h₁.mem_blockNodes hb hlist' hna rfl, na', hna', c, hregions ▸ hc, n',
              hn', ?_⟩
            rw [hparent]
            exact he.graphReaches_iff.2 hreach
      · intro a ha done t t' memo memo' ht hrun
        obtain ⟨nd, t₁, hget, hrun⟩ := runs_bind.1 hrun
        obtain ⟨hnd, rfl⟩ := runs_node.1 hget
        rw [← Except.ok.inj ((he.sound.blockNodes_eq (he.placed hb)).symm.trans hlist')] at ha
        obtain ⟨na, hna⟩ := he.sound.live_of_mem ha
        obtain ⟨na', hna', -, hregions⟩ := ht.live hna
        obtain ⟨nd', hnd', -, rfl⟩ := Module.exists_of_live? hna'
        obtain rfl := Option.some.inj (hnd.symm.trans hnd')
        have hstep := ht.foldlM (p := fun c j => ∃ n, s₁.module.live? j = some n ∧
          s₁.module.GraphReaches c n.parent) (fun c hc {_ _ _ _ _} h hrun =>
            ih (.region hna (hregions ▸ hc) (he.sound.placed hna)) h hrun) hrun
        refine hstep.mono fun j hj => hj.imp_right ?_
        rintro ⟨na₁, hna₁, c, hc, hj⟩
        obtain rfl := Option.some.inj (hna.symm.trans hna₁)
        exact ⟨c, hregions.symm ▸ hc, hj⟩

end Tidied

theorem prettify_tidied (ho : env.oracle = .systemVerilog) {r : Unit} (hs : Sound s.module)
    (hfeeds : WellFounded s.module.Feeds) (hsingle : s.module.SingleResults)
    (hrun : prettify.Runs env s r s') : ∃ memo, Tidied env.options s.module
      (fun j => ∃ n, s.module.live? j = some n ∧ s.module.GraphReaches s.module.body n.parent) s'
      memo := by
  simp only [prettify, runs_bind, runs_fuel, runs_query, runs_pure] at hrun
  obtain ⟨depth, _, ⟨-, rfl⟩, body, _, ⟨hbody, rfl⟩, memo, s₁, hrun, -, rfl⟩ := hrun
  obtain rfl := Except.ok.inj hbody
  have h : Tidied env.options s.module (fun _ => False) s .empty :=
    ⟨.refl hs, hsingle, hfeeds, fun hn => ⟨_, hn, rfl, rfl⟩, fun hn _ => Or.inl ⟨_, hn⟩,
      fun _ v size hget => (by cases hget), fun _ hdone => hdone.elim⟩
  exact ⟨memo, (h.prettifyBlock ho .body hrun).mono fun j hj => Or.inr hj⟩

end Prep

/-- The expressions in graph blocks that are reached through graph blocks only are tidy; their terms are
counted as the module stands. -/
def Module.Tidy (m : Module) (names : NameTable) (o : Options) : Prop :=
  (∃ f, m.CountsTerms f) ∧ ∀ f, m.CountsTerms f → ∀ id n, m.live? id = some n →
    n.op.isExpression = true → m.GraphReaches m.body n.parent → m.IsTidy names o f n

/-- What is tidy after a run, as the module stands then. -/
theorem Prep.Tidied.isTidy {o : Options} {m₀ : Module} {s : State} {memo : CostMemo}
    {f : ValueId → Nat} {id : NodeId} {n : Node}
    (h : Tidied o m₀ (fun j => ∃ n, m₀.live? j = some n ∧ m₀.GraphReaches m₀.body n.parent) s memo)
    (hf : s.module.CountsTerms f) (hn : s.module.live? id = some n)
    (hop : n.op.isExpression = true) (hreach : s.module.GraphReaches s.module.body n.parent) :
    s.module.IsTidy s.names o f n := by
  obtain ⟨n₀, hn₀⟩ | hread := h.back hn hop
  · obtain ⟨n', hn', hparent, -⟩ := h.live hn₀
    obtain rfl := Option.some.inj (hn'.symm.trans hn)
    rw [h.edits.graphReaches_iff, h.edits.kept.body, hparent] at hreach
    exact h.tidy hf ⟨n₀, hn₀, hreach⟩ hn hop
  · exact Or.inl (Or.inr (Or.inl hread))

/-- Once a module without cycles has been made readable, every inline expression is tidy. -/
theorem tidy_of_prettify {m m' : Module} {names names' : NameTable} {options : Options}
    (hs : Sound m) (hcycles : m.NoCycles) (hsingle : m.SingleResults)
    (h : Yields .prettify options m names m' names') : m'.Tidy names' options := by
  obtain ⟨env, s, s', ho, rfl, rfl, -, rfl, rfl, hrun⟩ := h.runs
  obtain ⟨memo, ht⟩ := prettify_tidied ho hs (hcycles.wellFounded hs.toWellFormed) hsingle hrun
  exact ⟨Module.exists_countsTerms ht.edits.sound.toWellFormed ht.wellFounded,
    fun f hf id n hn hop hreach => ht.isTidy hf hn hop hreach⟩

/-- Sums that double a sum, in the body and under a conditional. -/
def Module.doubled : Module :=
  .sketch [.int 8] [(.input, 0), (.input, 0), (.input, 0), (.output, 0)]
    [(.back ⟨0⟩, .add, [0, 1], [0]), (.back ⟨0⟩, .add, [3, 3], [0]),
      (.back ⟨0⟩, .xor, [4, 2], [0]), (.back ⟨0⟩, .sub, [5, 0], [0]),
      (.back ⟨0⟩, .ifdef ⟨5⟩, [], []), (.back ⟨1⟩, .add, [4, 4], [0]),
      (.back ⟨1⟩, .add, [7, 7], [0]), (.back ⟨0⟩, .output, [6], [])]

/-- With a limit of three terms the doubled sums get wires, after which the rest is within it. -/
theorem tidy_doubled : Sound Module.doubled ∧ Module.doubled.NoCycles ∧
    Module.doubled.SingleResults ∧ ∃ m' names',
      Yields .prettify { Options.default with maximumTerms := 3 } .doubled Module.sketchNames m'
        names' ∧
      m'.Tidy names' { Options.default with maximumTerms := 3 } ∧
      (m'.nodesOf ⟨0⟩ ++ m'.nodesOf ⟨1⟩).filterMap (fun id => (m'.live? id).map (·.op)) =
        [.add, .add, .wire, .assign, .read, .xor, .sub, .ifdef ⟨5⟩, .output] ++
          [.read, .read, .add, .add, .wire, .assign] := by
  have hs : Sound Module.doubled := sound_of_isSound (by decide +kernel)
  have hall : (Module.doubled.nodeIds.all fun id => (Module.doubled.live? id).all fun n =>
      (n.results.all fun v => n.operands.all fun w => decide (w.index < v.index)) &&
        decide (n.results.length ≤ 1)) = true := by decide +kernel
  have hnode : ∀ {id n}, Module.doubled.live? id = some n →
      (∀ v ∈ n.results, ∀ w ∈ n.operands, w.index < v.index) ∧ n.results.length ≤ 1 := by
    intro id n hn
    have hid := List.all_eq_true.1 hall id (Module.mem_nodeIds_iff.2 (Module.lt_of_live? hn))
    simpa [hn] using hid
  have hcycles : Module.doubled.NoCycles := Module.noCycles_of_lt fun ⟨_, _, hn, hv, hw⟩ =>
    (hnode hn).1 _ hv _ hw
  have hsingle : Module.doubled.SingleResults := fun hn _ => (hnode hn).2
  obtain ⟨m', names', h, hm'⟩ := exists_yields_of_leaves
    (p := fun m' _ =>
      (m'.nodesOf ⟨0⟩ ++ m'.nodesOf ⟨1⟩).filterMap (fun id => (m'.live? id).map (·.op)) ==
        [.add, .add, .wire, .assign, .read, .xor, .sub, .ifdef ⟨5⟩, .output] ++
          [.read, .read, .add, .add, .wire, .assign])
    (show leaves .prettify { Options.default with maximumTerms := 3 } .doubled Module.sketchNames _ =
      true by decide +kernel)
  exact ⟨hs, hcycles, hsingle, m', names', h, tidy_of_prettify hs hcycles hsingle h,
    beq_iff_eq.1 hm'⟩

end NetPrep
