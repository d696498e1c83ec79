import Mathlib
import NetPrep.Proofs.Keeping.Legalization
import NetPrep.Proofs.Passes

/-!
# What legalization leaves behind

Legalization of a valid module neither follows an identifier that leads nowhere, nor moves an erased
node, nor erases one whose results are used. Whatever its answer is, it leaves a sound module with the
ports, the body and the name of the one it was given: also a failure, which can strike at any node,
leaves every list, every use and every region in order.
-/

namespace NetPrep

open Prepare

/-! ## Checks -/

namespace Module

variable {m : Module} {names : NameTable}

/-- Whether the types of all values are in a table that is built from the parts up. -/
def hasTypes (m : Module) : Bool :=
  m.hasFiniteTypes && m.valueIds.all fun v => ((m.type? v).bind m.types.entry?).isSome

/-- Whether every name that is read has a string behind it. -/
def isNamed (m : Module) (names : NameTable) : Bool :=
  (names.resolve m.name).isOk && m.ports.all (fun p => (names.resolve p.name).isOk) &&
    m.nodeIds.all fun id =>
      match m.live? id with
      | some n => (n.name.toList ++ n.op.portNames).all fun name => (names.resolve name).isOk
      | none => true

theorem hasTypes_of_check (h : m.hasTypes = true) : m.HasTypes := by
  obtain ⟨hfinite, hvalues⟩ := Bool.and_eq_true_iff.1 h
  refine ⟨fun {v t} ht => ?_, fun id type hid => (types_of_hasFiniteTypes hfinite hid).1⟩
  have hv := List.all_eq_true.1 hvalues v (mem_valueIds_iff.2 (lt_of_type? ht))
  simpa [ht, Option.isSome_iff_exists] using hv

theorem named_of_isNamed (h : m.isNamed names = true) : m.Named names := by
  have hknown : ∀ {name}, (names.resolve name).isOk = true → names.Knows name := fun {name} hok => by
    cases hr : names.resolve name with
    | ok text => exact ⟨text, hr⟩
    | error e => simp [hr, Except.isOk, Except.toBool] at hok
  simp only [isNamed, Bool.and_eq_true, List.all_eq_true] at h
  obtain ⟨⟨hself, hports⟩, hnodes⟩ := h
  have hnode : ∀ {id n name}, m.live? id = some n → name ∈ n.name.toList ++ n.op.portNames →
      names.Knows name := fun {id n name} hn hmem => by
    have hid := hnodes id (mem_nodeIds_iff.2 (lt_of_live? hn))
    rw [hn] at hid
    exact hknown (List.all_eq_true.1 hid name hmem)
  exact ⟨hknown hself, fun p hp => hknown (hports p hp),
    fun hn hname => hnode hn (List.mem_append_left _ (by simp [hname])),
    fun hn hname => hnode hn (List.mem_append_right _ hname)⟩

/-- A well-typed module in which types and names lead somewhere is orderly. -/
theorem orderly_of_wellTyped (hm : WellTyped m) (ht : m.HasTypes) (hn : m.Named names) :
    m.Orderly names where
  toSound := hm.toSound
  toHasTypes := ht
  toNamed := hn
  shaped hid := Module.Typed.shaped (hm.typed hid)

end Module

/-! ## Legalization -/

variable {m : Module} {names : NameTable} {fuel : Nat} {options : Options}

/-- Legalization of an orderly module stops for want of room or of steps, or leaves a sound module,
whether it fails or not. -/
theorem sound_of_legalize (hm : m.Orderly names) :
    (∀ f, runWith fuel .legalize options .systemVerilog m names = .error f → f.IsLimit) ∧
    ∀ out, runWith fuel .legalize options .systemVerilog m names = .ok out →
      Sound out.module ∧ out.module.ports = m.ports ∧ out.module.body = m.body ∧
        out.module.name = m.name := by
  obtain ⟨name, hname⟩ := hm.self
  have hkeeps : Prep.legalize.Keeps ⟨options, .systemVerilog, name, fuel⟩ ⟨m, names, .zero⟩ :=
    Prep.legalize_keeps rfl hm
  have hrun : runWith fuel .legalize options .systemVerilog m names =
      (Prep.legalize ⟨options, .systemVerilog, name, fuel⟩ ⟨m, names, .zero⟩ >>= fun p =>
        .ok ⟨p.2.module, p.2.names, p.1.map fun _ => p.2.stats⟩) := by
    unfold runWith
    rw [hname, ok_bind]
    rfl
  rw [hrun]
  constructor
  · exact (hkeeps.tame).bind fun p _ => .ok _
  · intro out hout
    obtain ⟨⟨r, s'⟩, h, heq⟩ := bind_eq_ok_iff.1 hout
    obtain rfl := Except.ok.inj heq
    have hl := hkeeps.leads h
    exact ⟨hl.orderly.toSound, hl.edits.kept.ports, hl.edits.kept.body, hl.edits.kept.name⟩

/-- A sum of three operands, and behind it a node of another dialect. -/
def Module.halfway : Module :=
  .sketch [.int 8] [(.input, 0), (.input, 0), (.input, 0), (.output, 0)]
    [(.back ⟨0⟩, .add, [0, 1, 2], [0]), (.back ⟨0⟩, .foreign "seq" "reg", [], []),
      (.back ⟨0⟩, .output, [3], [])]

/-- The sum is replaced before the node behind it stops legalization. -/
theorem sound_halfway : Valid Module.halfway ∧ Module.halfway.HasTypes ∧
    Module.halfway.Named Module.sketchNames ∧ ∃ out,
      runWith 32 .legalize .default .systemVerilog .halfway Module.sketchNames = .ok out ∧
        out.result.isOk = false ∧ out.module.live? ⟨0⟩ = none ∧ Sound out.module ∧
        out.module.ports = Module.halfway.ports := by
  have hv : Valid Module.halfway := valid_of_isValid (by decide +kernel)
  have ht : Module.halfway.HasTypes := Module.hasTypes_of_check (by decide +kernel)
  have hn : Module.halfway.Named Module.sketchNames := Module.named_of_isNamed (by decide +kernel)
  have hrun : (match runWith 32 .legalize .default .systemVerilog .halfway Module.sketchNames with
      | .ok out => !out.result.isOk && (out.module.live? ⟨0⟩).isNone
      | .error _ => false) = true := by decide +kernel
  split at hrun
  · next out hout =>
    simp only [Bool.and_eq_true, Bool.not_eq_true', Option.isNone_iff_eq_none] at hrun
    obtain ⟨hs, hports, -⟩ := (sound_of_legalize (Module.orderly_of_wellTyped hv.toWellTyped ht hn)).2 out hout
    exact ⟨hv, ht, hn, out, hout, hrun.1, hrun.2, hs, hports⟩
  · cases hrun

end NetPrep
