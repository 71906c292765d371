import EventScript.Proofs.Recovered
import EventScript.Proofs.Stream
import Mathlib.Data.List.Nodup

namespace EventScript

namespace Instruction

variable {i : Instruction} {t : Nat}

/-- The instruction refers to the address as data: it stands in an operand that does not lead to
code. -/
def RefersTo (i : Instruction) (t : Nat) : Prop :=
  ∃ c ∈ Command.all, c.name = i.opcode ∧ ∃ shape, c.shapeOf i.operands = .ok shape ∧
    ∃ (index : Nat) (o : Operand), i.operands[index]? = some o ∧
      (∀ slot, shape[index]? = some slot → slot.codeTarget? c.targetKind o = none) ∧
      ∃ width isElse span, .offset t width isElse span ∈ o.walk

end Instruction

namespace Decoded.Valid

variable {data : Bytes} {d : Decoded} {t : Nat}

end Decoded.Valid

namespace Marks

end Marks

namespace Recovery

section Spec

variable (data : Bytes) (seeds : List Seed)

/-- Reading from the seeds on gets to the instruction. -/
structure Reached (d : Decoded) : Prop where
  valid : d.Valid data
  reachable : Reachable data seeds d.offset

def IsCode (p : Nat) : Prop := ∃ d, Reached data seeds d ∧ d.offset ≤ p ∧ p < d.stop

def IsUnlabelled (t : Nat) : Prop :=
  data.length < t ∨ ∃ d, Reached data seeds d ∧ d.offset < t ∧ t < d.stop

/-- A label of the kind is asked for at the offset: by a seed, by a reference to code, by a reference
to data that a label can stand at, or by the first byte of a run of bytes that are no code. -/
inductive Asks : LabelKind → Nat → Prop
  | seed {entry : Option EntryPoint} {t : Nat} (given : (entry, (t : Int)) ∈ seeds) : Asks (Seed.kind (entry, t)) t
  | code {d : Decoded} {kind : LabelKind} {t : Nat} (reached : Reached data seeds d)
    (leads : (kind, t) ∈ d.instruction.codeTargets) : Asks kind t
  | reference {d : Decoded} {t : Nat} (reached : Reached data seeds d) (refers : d.instruction.RefersTo t)
    (free : ¬ IsUnlabelled data seeds t) : Asks .data t
  | run {t : Nat} (inside : t < data.length) (unread : ¬ IsCode data seeds t)
    (first : t = 0 ∨ IsCode data seeds (t - 1)) : Asks .data t

end Spec

variable {data : Bytes} {seeds : List Seed} {r : Recovery} {t : Nat}

end Recovery

/-- An operand that was read, and the one in the script: a reference becomes the label that stands at
its address, or stays the address where no label can stand. -/
inductive Operand.Recovers (unlabelled : Nat → Prop) (labelled : String → Nat → Prop) : Operand → Operand → Prop
  | address {t : Nat} {width width' : Option Width} {isElse : Bool} (raw : unlabelled t) :
    Recovers unlabelled labelled (.offset t width isElse none) (.offset t width' isElse none)
  | label {t : Nat} {name : String} {width width' : Option Width} {isElse : Bool} (free : ¬ unlabelled t)
    (named : labelled name t) :
    Recovers unlabelled labelled (.offset t width isElse none) (.label name width' isElse none)
  | expr {op : String} {args args' : List Operand} {span : Option Span}
    (each : List.Forall₂ (Recovers unlabelled labelled) args args') :
    Recovers unlabelled labelled (.expr op args span) (.expr op args' span)
  | other {o : Operand} (notRef : o.isReference = false) (notExpr : ∀ op args span, o ≠ .expr op args span) :
    Recovers unlabelled labelled o o

theorem Relabels.recovers {change : Operand → Operand} (keeps : Relabels change) {unlabelled : Nat → Prop}
    {labelled : String → Nat → Prop} {o : Operand}
    (leaves : ∀ leaf ∈ o.walk, leaf.isReference = true → leaf.Recovers unlabelled labelled (change leaf)) :
    o.Recovers unlabelled labelled (o.mapLeaves change) := by
  induction o using Operand.expr_induction with
  | leaf o notExpr =>
    rcases keeps.mapLeaves_cases o with ⟨isRef, mapped, -⟩ | ⟨op, args, span, same, -⟩ | ⟨notRef, mapped⟩
    · rw [mapped]
      exact leaves o o.mem_walk_self isRef
    · exact absurd same (notExpr op args span)
    · rw [mapped]
      exact .other notRef notExpr
  | expr op args span ih =>
    rw [Operand.mapLeaves, Operand.mapLeavesAll_eq_map]
    refine .expr (List.forall₂_map_right_iff.2 (List.forall₂_same.2 fun a isArg => ih a isArg fun leaf inArg => ?_))
    exact leaves leaf (Operand.mem_walk_of_arg isArg inArg)

theorem Script.get?_of_bindings {s : Script}
    (bindings : s.labels.bindings = s.blocks.mapIdx fun k b => (b.label, ⟨k, 0⟩))
    (distinct : (s.blocks.map (·.label)).Nodup) {k : Nat} {b : Block} (here : s.blocks[k]? = some b) :
    s.labels.get? b.label = some ⟨k, 0⟩ := by
  obtain ⟨bound, rfl⟩ := List.getElem?_eq_some_iff.1 here
  cases found : s.labels.get? s.blocks[k].label with
  | none => exact absurd rfl ((get?_eq_none_of_bindings bindings).1 found _ (List.getElem_mem bound))
  | some binding =>
    obtain ⟨pair, isFound, rfl⟩ := Option.map_eq_some_iff.1 found
    have same : pair.1 = s.blocks[k].label := by simpa using List.find?_some isFound
    have member := List.mem_of_find?_eq_some isFound
    rw [bindings, List.mem_mapIdx] at member
    obtain ⟨k', bound', rfl⟩ := member
    obtain rfl : k' = k := by
      refine (List.getElem?_inj (by simpa using bound') distinct).1 ?_
      simpa [bound, bound'] using same
    rfl

namespace Script

open Recovery

variable {data : Bytes} {seeds : List Seed} {target : Option Target} {limit : Nat} {s : Script}

end Script

end EventScript
