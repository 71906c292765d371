import EventScript.Proofs.Encoding
import Mathlib.Data.List.Chain

namespace EventScript

namespace MessageOp

theorem nodup_keys : (all.map MessageOp.code).Nodup ∧ (all.map MessageOp.name).Nodup := by
  decide +kernel

theorem ofCode?_eq_some {code : UInt8} {m : MessageOp} :
    ofCode? code = some m ↔ m ∈ all ∧ m.code = code :=
  find?_key_eq_some MessageOp.code nodup_keys.1

theorem ofName?_eq_some {name : String} {m : MessageOp} :
    ofName? name = some m ↔ m ∈ all ∧ m.name = name :=
  find?_key_eq_some MessageOp.name nodup_keys.2

theorem name_ne_textName {m : MessageOp} (member : m ∈ all) : m.name ≠ textName := by
  revert m
  decide +kernel

theorem code_not_text {m : MessageOp} (member : m ∈ all) :
    isTextByte m.code = false ∧ m.code ≠ endByte := by
  revert m
  decide +kernel

def isMessageSlot : Slot → Bool
  | .field _ | .format => true
  | .literal v => decide (Bytes.InRange v 1)
  | _ => false

theorem isMessageSlot_of_mem {m : MessageOp} (member : m ∈ all) {shape : Shape}
    (form : shape ∈ m.shapes) {slot : Slot} (inForm : slot ∈ shape) : isMessageSlot slot = true := by
  have table : ∀ m ∈ all, ∀ shape ∈ m.shapes, ∀ slot ∈ shape, isMessageSlot slot = true := by
    decide +kernel
  exact table m member shape form slot inForm

theorem choose_eq_ok {m : MessageOp} (member : m ∈ all) {name : String} {args : List Operand}
    {shape : Shape} : Shape.choose Slot.acceptsField name m.shapes args = .ok shape ↔
      shape ∈ m.shapes ∧ List.Forall₂ (fun slot o => slot.acceptsField o = true) shape args := by
  rw [Shape.choose_eq_ok (MessageOp.regular member).separate Slot.not_acceptsField_of_exclusive]
  refine and_congr_right fun form => Shape.fits_fixed fun variadic => ?_
  have := isMessageSlot_of_mem member form variadic
  cases this

end MessageOp

def Operand.IsField : Operand → Prop
  | int _ width span => width = none ∧ span = none
  | text _ span => span = none
  | _ => False

namespace Field

def Holds (f : Field) (value : Int) : Prop :=
  if f.signed then Bytes.InRange value f.width.bytes else 0 ≤ value ∧ value < 256 ^ f.width.bytes

def order (f : Field) (bytes : Bytes) : Bytes := if f.bigEndian then bytes.reverse else bytes

def read (f : Field) (bytes : Bytes) : Int :=
  if f.signed then (f.order bytes).signed else (f.order bytes).unsigned

theorem order_eq_iff {f : Field} {bytes bytes' : Bytes} :
    f.order bytes = bytes' ↔ bytes = f.order bytes' := by
  unfold order
  split
  · exact List.reverse_eq_iff
  · exact Iff.rfl

theorem length_order (f : Field) (bytes : Bytes) : (f.order bytes).length = bytes.length := by
  unfold order
  split <;> simp

theorem read_eq_iff {f : Field} {value : Int} {bytes : Bytes} :
    (bytes.length = f.width.bytes ∧ f.read bytes = value) ↔
      f.Holds value ∧ bytes = f.order (Bytes.pack value f.width.bytes) := by
  rw [← order_eq_iff, ← length_order f bytes]
  unfold read Holds
  generalize f.order bytes = stored
  cases f.signed with
  | true =>
    simp only [if_true]
    constructor
    · rintro ⟨full, rfl⟩
      rw [← full]
      exact ⟨Bytes.signed_inRange stored, (Bytes.pack_signed stored).symm⟩
    · rintro ⟨inRange, rfl⟩
      exact ⟨Bytes.length_pack .., Bytes.signed_pack inRange⟩
  | false =>
    simp only [Bool.false_eq_true, if_false]
    constructor
    · rintro ⟨full, rfl⟩
      rw [← full]
      exact ⟨⟨Int.natCast_nonneg _, by exact_mod_cast Bytes.unsigned_lt stored⟩,
        (Bytes.pack_unsigned stored).symm⟩
    · rintro ⟨⟨nonneg, bound⟩, rfl⟩
      obtain ⟨n, rfl⟩ := Int.eq_ofNat_of_zero_le nonneg
      exact ⟨Bytes.length_pack .., by rw [Bytes.unsigned_pack_of_lt (by exact_mod_cast bound)]⟩

end Field

section Fields

open Decoder

variable {p : Placement} {c c' : Cursor} {o : Operand} {index : Nat}

theorem lowerField_eq_ok {f : Field} {value : Int} {span : Option Span} {bs : Bytes} :
    p.lowerField f value span = .ok bs ↔
      f.Holds value ∧ bs = f.order (Bytes.pack value f.width.bytes) := by
  have range : ((if f.signed then -(2 ^ (f.width.bits - 1)) else 0 : Int) ≤ value ∧
      value < if f.signed then 2 ^ (f.width.bits - 1) else 2 ^ f.width.bits) ↔ f.Holds value := by
    unfold Field.Holds
    cases f.signed <;> cases f.width <;>
      simp only [Bytes.InRange, Width.bits, Width.bytes, Nat.reduceMul, Nat.reduceSub, Int.reducePow,
        if_true, Bool.false_eq_true, if_false] <;> omega
  unfold Placement.lowerField
  dsimp only
  by_cases inRange : f.Holds value
  · rw [if_pos (range.2 inRange)]
    simp only [inRange, true_and, Except.ok.injEq]
    exact eq_comm
  · rw [if_neg (range.not.2 inRange)]
    simp [inRange, Placement.fail]

/-- An argument of a message command is read in its slot from exactly the bytes that it is stored in
there. -/
theorem message_readsSlot_iff {slot : Slot} (kind : MessageOp.isMessageSlot slot = true) :
    messageReading.ReadsSlot index slot c o c' ↔ (slot.acceptsField o = true ∧ o.IsField) ∧
      ∃ bs, p.lowerMessageArg slot o = .ok bs ∧ c.Advances bs c' := by
  cases slot <;> simp only [MessageOp.isMessageSlot, Bool.false_eq_true, decide_eq_true_eq] at kind
  case field f =>
    rw [Reading.readsSlot_operand _ rfl]
    simp only [messageReading, messageField, reads_bind, reads_take, reads_pure]
    constructor
    · rintro ⟨bytes, _, ⟨full, advance⟩, rfl, rfl⟩
      obtain ⟨holds, same⟩ := Field.read_eq_iff.1 ⟨full, rfl⟩
      exact ⟨⟨rfl, rfl, rfl⟩, bytes, lowerField_eq_ok.2 ⟨holds, same⟩, advance⟩
    · rintro ⟨⟨accepted, isField⟩, bs, stored, advance⟩
      cases o <;> simp only [Slot.acceptsField, Bool.false_eq_true] at accepted
      case int value width span =>
        obtain ⟨rfl, rfl⟩ := isField
        obtain ⟨full, rfl⟩ := Field.read_eq_iff.2 (lowerField_eq_ok.1 stored)
        exact ⟨bs, c', ⟨full, advance⟩, rfl, rfl⟩
  case format =>
    rw [Reading.readsSlot_operand _ rfl]
    simp only [messageReading, messageField, reads_bind, reads_takeUntil, reads_pure]
    constructor
    · rintro ⟨bytes, _, ⟨closed, advance⟩, rfl, rfl⟩
      exact ⟨⟨by simpa [Slot.acceptsField] using closed, rfl⟩, _, rfl, advance⟩
    · rintro ⟨⟨accepted, isField⟩, bs, stored, advance⟩
      cases o <;> simp only [Slot.acceptsField, Bool.false_eq_true] at accepted
      case text bytes span =>
        obtain rfl := isField
        cases stored
        exact ⟨bytes, c', ⟨by simpa using accepted, advance⟩, rfl, rfl⟩
  case literal v =>
    rw [Reading.readsSlot_selector _ rfl]
    simp only [messageReading, reads_bind, reads_byte, reads_pure, Prod.mk.injEq]
    constructor
    · rintro ⟨value, width, ⟨b, _, advance, ⟨rfl, rfl⟩, rfl⟩, selected, rfl⟩
      obtain rfl : Bytes.signed [b] = v := by simpa [Slot.selectedBy] using selected
      refine ⟨⟨by simp [Reading.selected, Slot.acceptsField], rfl, rfl⟩, [b], ?_, advance⟩
      exact congrArg Except.ok (Bytes.pack_signed [b])
    · rintro ⟨⟨accepted, isField⟩, bs, stored, advance⟩
      cases o <;> simp only [Slot.acceptsField, Bool.false_eq_true] at accepted
      case int value width span =>
        obtain ⟨rfl, rfl⟩ := isField
        obtain rfl : value = v := by simpa using accepted
        obtain ⟨b, single⟩ := List.length_eq_one_iff.1 (Bytes.length_pack value 1)
        cases stored
        rw [single] at advance
        have readBack : Bytes.signed [b] = value := single ▸ Bytes.signed_pack kind
        exact ⟨value, .byte, ⟨b, c', advance, ⟨readBack, rfl⟩, rfl⟩, by simp [Slot.selectedBy], rfl⟩

theorem storesAll_iff_fields {slots : List Slot} {args : List Operand}
    (same : slots.length = args.length) {bs : Bytes} :
    StoresAll (fun _ slot o b => p.lowerMessageArg slot o = .ok b) index slots args bs ↔
      ∃ fields : List Bytes,
        (slots.zip args).mapM (fun (slot, arg) => p.lowerMessageArg slot arg) = .ok fields ∧
          fields.flatten = bs := by
  induction slots generalizing index args bs with
  | nil =>
    obtain rfl := List.length_eq_zero_iff.1 same.symm
    simp only [StoresAll, List.zip_nil_right, List.mapM_nil, pure_eq_ok, exists_eq_left',
      List.flatten_nil]
    exact eq_comm
  | cons slot slots ih =>
    cases args with
    | nil => simp at same
    | cons o os =>
      simp only [StoresAll, ih (Nat.succ.inj same), List.zip_cons_cons, List.mapM_cons, bind_eq_ok,
        pure_eq_ok]
      constructor
      · rintro ⟨b, _, rfl, stored, fields, others, rfl⟩
        exact ⟨_, ⟨b, stored, fields, others, rfl⟩, List.flatten_cons⟩
      · rintro ⟨_, ⟨b, stored, fields, others, rfl⟩, rfl⟩
        exact ⟨b, _, List.flatten_cons, stored, fields, others, rfl⟩

theorem lowerMessageCommand_eq_ok {m : MessageOp} (member : m ∈ MessageOp.all)
    {args : List Operand} {span : Option Span} {bs : Bytes} :
    p.lowerMessageCommand ⟨m.name, args, span⟩ = .ok bs ↔ ∃ slots ∈ m.shapes,
      List.Forall₂ (fun slot o => slot.acceptsField o = true) slots args ∧ ∃ bs',
        bs = m.code :: bs' ∧ StoresAll (fun _ slot o b => p.lowerMessageArg slot o = .ok b) 0 slots args bs' := by
  have notText : ¬ (m.name == MessageOp.textName) = true := by
    simpa using MessageOp.name_ne_textName member
  unfold Placement.lowerMessageCommand
  dsimp only
  rw [if_neg notText, MessageOp.ofName?_eq_some.2 ⟨member, rfl⟩]
  dsimp only
  constructor
  · intro lowered
    split at lowered
    · cases lowered
    · rename_i shape fits
      obtain ⟨form, accepted⟩ := (MessageOp.choose_eq_ok member).1 fits
      obtain ⟨fields, stored, same⟩ := bind_eq_ok.1 lowered
      cases same
      exact ⟨shape, form, accepted, _, rfl, (storesAll_iff_fields accepted.length_eq).2 ⟨fields, stored, rfl⟩⟩
  · rintro ⟨slots, form, accepted, bs', rfl, stored⟩
    obtain ⟨fields, lowered, rfl⟩ := (storesAll_iff_fields accepted.length_eq).1 stored
    rw [(MessageOp.choose_eq_ok member).2 ⟨form, accepted⟩]
    exact bind_eq_ok.2 ⟨fields, lowered, rfl⟩

theorem reads_messageArguments {m : MessageOp} (member : m ∈ MessageOp.all) {args : List Operand} :
    (∃ rest, (walkShapes messageReading m.name m.shapes).Reads c (args, rest) c') ↔
      (∀ a ∈ args, a.IsField) ∧ ∃ bs, p.lowerMessageCommand ⟨m.name, args, none⟩ = .ok (m.code :: bs) ∧
        c.Advances bs c' := by
  have slotwise {slots : Shape} (form : slots ∈ m.shapes) :
      messageReading.ReadsSlots 0 slots c args c' ↔
        (List.Forall₂ (fun slot o => slot.acceptsField o = true) slots args ∧
          ∀ a ∈ args, a.IsField) ∧
        ∃ bs, StoresAll (fun _ slot o b => p.lowerMessageArg slot o = .ok b) 0 slots args bs ∧
          c.Advances bs c' := by
    rw [← forall₂_and_right]
    exact Reading.readsSlots_iff (fun _ slot inForm _ _ _ _ =>
      message_readsSlot_iff (MessageOp.isMessageSlot_of_mem member form inForm)) le_rfl
  simp only [reads_walkShapes (MessageOp.regular member), lowerMessageCommand_eq_ok member]
  have fixed {slots : Shape} (form : slots ∈ m.shapes) : .variadic ∉ slots := fun variadic => by
    have := MessageOp.isMessageSlot_of_mem member form variadic
    cases this
  constructor
  · rintro ⟨rest, slots, form, tail, -, read⟩
    obtain rfl : rest = [] := by
      rcases tail with rfl | rfl
      · rfl
      · exact absurd (by simp) (fixed form)
    rw [List.append_nil] at form
    obtain ⟨⟨accepted, isField⟩, bs, stored, advance⟩ := (slotwise form).1 read
    exact ⟨isField, bs, ⟨slots, form, accepted, bs, rfl, stored⟩, advance⟩
  · rintro ⟨isField, bs, ⟨slots, form, accepted, bs', same, stored⟩, advance⟩
    obtain ⟨-, rfl⟩ := List.cons.inj same
    exact ⟨[], slots, by rwa [List.append_nil], .inl rfl, fixed form,
      (slotwise form).2 ⟨⟨accepted, isField⟩, bs, stored, advance⟩⟩

end Fields

namespace MessageCommand

def isText (command : MessageCommand) : Bool := command.op == MessageOp.textName

def IsRead (command : MessageCommand) : Prop :=
  command.span = none ∧ if command.isText then ∃ bytes, command.args = [.text bytes none] ∧ bytes ≠ []
    else ∀ a ∈ command.args, a.IsField

/-- A message body as it is read: no run of text follows another. -/
structure Tidy (commands : List MessageCommand) : Prop where
  each : ∀ command ∈ commands, command.IsRead
  apart : commands.IsChain fun a b => a.isText = false ∨ b.isText = false

theorem tidy_nil : Tidy [] := ⟨by simp, .nil⟩

theorem Tidy.tail {command : MessageCommand} {commands : List MessageCommand}
    (h : Tidy (command :: commands)) : Tidy commands :=
  ⟨fun c member => h.each c (List.mem_cons_of_mem _ member), h.apart.tail⟩

theorem Tidy.cons {command : MessageCommand} {commands : List MessageCommand}
    (isRead : command.IsRead) (tidy : Tidy commands)
    (next : ∀ c ∈ commands.head?, command.isText = false ∨ c.isText = false) :
    Tidy (command :: commands) where
  each := by simpa using ⟨isRead, tidy.each⟩
  apart := List.isChain_cons.2 ⟨next, tidy.apart⟩

end MessageCommand

namespace Decoder

open MessageCommand

theorem tidy_textCommand {text : Bytes} {commands : List MessageCommand} (tidy : Tidy commands)
    (next : ∀ c ∈ commands.head?, c.isText = false) : Tidy (textCommand text ++ commands) := by
  unfold textCommand
  split
  · exact tidy
  · rename_i some
    refine Tidy.cons ⟨rfl, ?_⟩ tidy fun c first => .inr (next c first)
    exact ⟨text, rfl, by simpa using some⟩

/-- A body that is read begins with a run of text, which may be empty, and goes on with another
command unless it ends. -/
theorem Tidy.split {commands : List MessageCommand} (tidy : Tidy commands) :
    ∃ text rest, commands = textCommand text ++ rest ∧ Tidy rest ∧
      ∀ c ∈ rest.head?, c.isText = false := by
  cases commands with
  | nil => exact ⟨[], [], rfl, tidy, by simp⟩
  | cons command commands =>
    cases isText : command.isText with
    | false => exact ⟨[], command :: commands, rfl, tidy, by simpa using isText⟩
    | true =>
      obtain ⟨noSpan, run⟩ := tidy.each command List.mem_cons_self
      rw [if_pos isText] at run
      obtain ⟨bytes, args, some⟩ := run
      refine ⟨bytes, commands, ?_, tidy.tail, fun c first => ?_⟩
      · obtain ⟨op, _, _⟩ := command
        obtain rfl : op = MessageOp.textName := beq_iff_eq.1 isText
        cases noSpan
        cases args
        simp [textCommand, some]
      · have apart := (List.isChain_cons.1 tidy.apart).1 c first
        simpa [isText] using apart

end Decoder

namespace Placement

variable {p : Placement}

variable (p) in
def StoresBody (commands : List MessageCommand) (bs : Bytes) : Prop :=
  ∃ parts, commands.mapM p.lowerMessageCommand = .ok parts ∧ parts.flatten = bs

theorem storesBody_nil {bs : Bytes} : p.StoresBody [] bs ↔ bs = [] := by
  simp only [StoresBody, List.mapM_nil, pure_eq_ok, exists_eq_left', List.flatten_nil]
  exact eq_comm

theorem storesBody_cons {command : MessageCommand} {commands : List MessageCommand} {bs : Bytes} :
    p.StoresBody (command :: commands) bs ↔ ∃ b b', bs = b ++ b' ∧
      p.lowerMessageCommand command = .ok b ∧ p.StoresBody commands b' := by
  simp only [StoresBody, List.mapM_cons, bind_eq_ok, pure_eq_ok]
  constructor
  · rintro ⟨_, ⟨b, first, parts, rest, rfl⟩, rfl⟩
    exact ⟨b, _, List.flatten_cons, first, parts, rest, rfl⟩
  · rintro ⟨b, _, rfl, first, parts, rest, rfl⟩
    exact ⟨_, ⟨b, first, parts, rest, rfl⟩, List.flatten_cons⟩

theorem op_of_lowerMessageCommand {command : MessageCommand} (notText : command.isText = false)
    {bs : Bytes} (lowered : p.lowerMessageCommand command = .ok bs) :
    ∃ m ∈ MessageOp.all, m.name = command.op := by
  unfold lowerMessageCommand at lowered
  rw [if_neg (by simpa [MessageCommand.isText] using notText)] at lowered
  cases found : MessageOp.ofName? command.op with
  | none => simp [found, fail] at lowered
  | some m => exact ⟨m, MessageOp.ofName?_eq_some.1 found⟩

theorem storesBody_textCommand {text bs : Bytes} {commands : List MessageCommand} :
    p.StoresBody (Decoder.textCommand text ++ commands) bs ↔
      text.all MessageOp.isTextByte = true ∧ ∃ bs', bs = text ++ bs' ∧ p.StoresBody commands bs' := by
  cases text with
  | nil => simp [Decoder.textCommand]
  | cons b text =>
    have lowered (bytes : Bytes) :
        p.lowerMessageCommand ⟨MessageOp.textName, [.text (b :: text) none], none⟩ = .ok bytes ↔
          (b :: text).all MessageOp.isTextByte = true ∧ bytes = b :: text := by
      unfold lowerMessageCommand
      rw [if_pos (by rfl)]
      dsimp only
      split
      · rename_i all
        simp [all, eq_comm]
      · rename_i bad
        simp [bad, fail]
    simp only [Decoder.textCommand, List.isEmpty_cons, Bool.false_eq_true, if_false,
      List.cons_append, List.nil_append, storesBody_cons, lowered]
    constructor
    · rintro ⟨_, bs', rfl, ⟨all, rfl⟩, rest⟩
      exact ⟨all, bs', rfl, rest⟩
    · rintro ⟨all, bs', rfl, rest⟩
      exact ⟨_, bs', rfl, ⟨all, rfl⟩, rest⟩

end Placement

namespace Decoder

open MessageCommand

theorem reads_messageBody_succ {limit : Nat} {c c' : Cursor} {commands : List MessageCommand} :
    (messageBody (limit + 1)).Reads c commands c' ↔ ∃ text c₁ code c₂,
      text.all MessageOp.isTextByte = true ∧ MessageOp.isTextByte code = false ∧
      c.Advances text c₁ ∧ c₁.Advances [code] c₂ ∧
      ((code = MessageOp.endByte ∧ commands = textCommand text ∧ c₂ = c') ∨
        ∃ m args rest c₃ others, code ≠ MessageOp.endByte ∧ MessageOp.ofCode? code = some m ∧
          (walkShapes messageReading m.name m.shapes).Reads c₂ (args, rest) c₃ ∧
          (messageBody limit).Reads c₃ others c' ∧
          commands = textCommand text ++ ⟨m.name, args, none⟩ :: others) := by
  rw [messageBody]
  simp only [reads_bind, reads_takeWhile, reads_offset, reads_byte]
  constructor
  · rintro ⟨text, c₁, ⟨all, advance, next⟩, _, _, ⟨rfl, rfl⟩, code, c₂, first, h⟩
    have notText : MessageOp.isTextByte code = false := by
      simpa [first.rest] using next
    refine ⟨text, c₁, code, c₂, all, notText, advance, first, ?_⟩
    by_cases ends : code = MessageOp.endByte
    · simp only [ends, beq_self_eq_true, if_true] at h
      obtain ⟨rfl, rfl⟩ := reads_pure.1 h
      exact .inl ⟨ends, rfl, rfl⟩
    · have going : ¬ (code == MessageOp.endByte) = true := by simpa using ends
      rw [if_neg going] at h
      cases found : MessageOp.ofCode? code with
      | none => simp only [found, reads_fail] at h
      | some m =>
        simp only [found, reads_bind, Prod.exists, reads_pure] at h
        obtain ⟨args, rest, c₃, read, others, _, body, rfl, rfl⟩ := h
        exact .inr ⟨m, args, rest, c₃, others, ends, rfl, read, body, rfl⟩
  · rintro ⟨text, c₁, code, c₂, all, notText, advance, first, h⟩
    refine ⟨text, c₁, ⟨all, advance, by simpa [first.rest] using notText⟩, _, _, ⟨rfl, rfl⟩, code,
      c₂, first, ?_⟩
    rcases h with ⟨rfl, rfl, rfl⟩ | ⟨m, args, rest, c₃, others, ends, found, read, body, rfl⟩
    · simp only [beq_self_eq_true, if_true]
      exact reads_pure.2 ⟨rfl, rfl⟩
    · have going : ¬ (code == MessageOp.endByte) = true := by simpa using ends
      rw [if_neg going]
      simp only [found, reads_bind, Prod.exists, reads_pure]
      exact ⟨args, rest, c₃, read, others, c', body, rfl, rfl⟩

theorem reads_messageBody {p : Placement} {limit : Nat} {c c' : Cursor}
    {commands : List MessageCommand} (enough : c.rest.length < limit) :
    (messageBody limit).Reads c commands c' ↔ Tidy commands ∧
      ∃ bs, p.StoresBody commands bs ∧ c.Advances (bs ++ [MessageOp.endByte]) c' := by
  -- One round reads a run of text and the command after it, which has a byte at least.
  induction limit generalizing c commands with
  | zero => simp at enough
  | succ limit ih =>
    rw [reads_messageBody_succ]
    constructor
    · rintro ⟨text, c₁, code, c₂, all, -, advance, first, h⟩
      rcases h with ⟨rfl, rfl, rfl⟩ | ⟨m, args, rest, c₃, others, ends, found, read, body, rfl⟩
      · have tidy : Tidy (textCommand text ++ []) := tidy_textCommand tidy_nil (by simp)
        have stored : p.StoresBody (textCommand text ++ []) text :=
          Placement.storesBody_textCommand.2 ⟨all, [], by simp, Placement.storesBody_nil.2 rfl⟩
        rw [List.append_nil] at tidy stored
        exact ⟨tidy, text, stored, advance.trans first⟩
      · obtain ⟨member, rfl⟩ := MessageOp.ofCode?_eq_some.1 found
        obtain ⟨isField, bs₂, lowered, advance₂⟩ :=
          (reads_messageArguments (p := p) member).1 ⟨rest, read⟩
        have enough' : c₃.rest.length < limit := by
          have := advance.length_le
          have := advance₂.length_le
          have := first.length_succ
          omega
        obtain ⟨tidy, bs₃, stored, advance₃⟩ := (ih enough').1 body
        have notText : isText ⟨m.name, args, none⟩ = false := by
          simpa [isText] using MessageOp.name_ne_textName member
        have isRead : IsRead ⟨m.name, args, none⟩ := ⟨rfl, by rw [notText]; exact isField⟩
        refine ⟨tidy_textCommand (tidy.cons isRead fun _ _ => .inl notText) (by simpa using notText),
          text ++ (m.code :: bs₂ ++ bs₃), Placement.storesBody_textCommand.2 ⟨all, _, rfl,
            Placement.storesBody_cons.2 ⟨_, _, rfl, lowered, stored⟩⟩, ?_⟩
        simpa using advance.trans (first.trans (advance₂.trans advance₃))
    · rintro ⟨tidy, bs, stored, advance⟩
      obtain ⟨text, rest, rfl, tidyRest, next⟩ := Tidy.split tidy
      obtain ⟨all, bs', rfl, storedRest⟩ := Placement.storesBody_textCommand.1 stored
      rw [List.append_assoc] at advance
      obtain ⟨c₁, run, advance'⟩ := Cursor.advances_append.1 advance
      cases rest with
      | nil =>
        obtain rfl := Placement.storesBody_nil.1 storedRest
        exact ⟨text, c₁, MessageOp.endByte, c', all, by decide, run, advance',
          .inl ⟨rfl, by simp, rfl⟩⟩
      | cons command others =>
        obtain ⟨b, b', rfl, lowered, storedOthers⟩ := Placement.storesBody_cons.1 storedRest
        have notText : command.isText = false := next command rfl
        obtain ⟨noSpan, isField⟩ := tidyRest.each command List.mem_cons_self
        rw [if_neg (by simp [notText])] at isField
        obtain ⟨op, args, span⟩ := command
        obtain rfl : span = none := noSpan
        obtain ⟨m, member, rfl⟩ := Placement.op_of_lowerMessageCommand notText lowered
        obtain ⟨slots, form, accepted, bs₂, rfl, fields⟩ := (lowerMessageCommand_eq_ok member).1 lowered
        rw [List.append_assoc] at advance'
        obtain ⟨c₂, first, after⟩ := Cursor.advances_cons.1 advance'
        obtain ⟨c₃, advance₂, advance₃⟩ := Cursor.advances_append.1 after
        obtain ⟨rest, read⟩ := (reads_messageArguments member).2 ⟨isField, bs₂, lowered, advance₂⟩
        have enough' : c₃.rest.length < limit := by
          have := run.length_le
          have := advance₂.length_le
          have := first.length_succ
          omega
        exact ⟨text, c₁, m.code, c₂, all, (MessageOp.code_not_text member).1, run, first,
          .inr ⟨m, args, rest, c₃, others, (MessageOp.code_not_text member).2,
            MessageOp.ofCode?_eq_some.2 ⟨member, rfl⟩, read,
            (ih enough').2 ⟨tidyRest.tail, b', storedOthers, advance₃⟩, rfl⟩⟩

theorem reads_message {p : Placement} {c c' : Cursor} {o : Operand} :
    message.Reads c o c' ↔ ∃ commands, o = .message commands none ∧ Tidy commands ∧
      ∃ bs, p.StoresBody commands bs ∧ bs.length + 1 ≤ MessageOp.maxBodySize ∧
        c'.offset < 2 ^ 32 ∧
          c.Advances (Bytes.pack c'.offset 4 ++ (bs ++ [MessageOp.endByte])) c' := by
  unfold message
  simp only [reads_bind, reads_offset, reads_take, reads_get]
  constructor
  · rintro ⟨_, _, ⟨rfl, rfl⟩, word, c₁, ⟨full, advance⟩, _, _, ⟨rfl, rfl⟩, _, _, ⟨rfl, rfl⟩,
      commands, c₂, body, _, _, ⟨rfl, rfl⟩, h⟩
    obtain ⟨tidy, bs, stored, advance'⟩ := (reads_messageBody (p := p) (Nat.lt_succ_self _)).1 body
    have length := advance'.offset
    rw [List.length_append, List.length_singleton] at length
    by_cases long : MessageOp.maxBodySize < c₂.offset - c₁.offset
    · simp only [long, if_true, reads_bind, reads_fail, false_and, exists_false] at h
    by_cases differs : (word.unsigned != c₂.offset) = true
    · simp only [long, differs, if_true, if_false, reads_bind, reads_fail, false_and,
        exists_false] at h
    simp only [long, if_false, differs] at h
    obtain ⟨rfl, rfl⟩ := reads_pure.1 h
    have same : word.unsigned = c₂.offset := by simpa using differs
    have bound := Bytes.unsigned_lt word
    have stop : Bytes.pack c₂.offset 4 = word := by
      rw [← same, ← full, Bytes.pack_unsigned]
    refine ⟨commands, rfl, tidy, bs, stored, by omega, ?_, by rw [stop]; exact advance.trans advance'⟩
    rw [same, full] at bound
    exact bound
  · rintro ⟨commands, rfl, tidy, bs, stored, short, bound, advance⟩
    obtain ⟨c₁, first, advance'⟩ := Cursor.advances_append.1 advance
    have length := advance'.offset
    rw [List.length_append, List.length_singleton] at length
    have body := (reads_messageBody (Nat.lt_succ_self _)).2 ⟨tidy, bs, stored, advance'⟩
    have long : ¬ MessageOp.maxBodySize < c'.offset - c₁.offset := by omega
    have same : (Bytes.pack c'.offset 4).unsigned = c'.offset :=
      Bytes.unsigned_pack_of_lt (by simpa using bound)
    refine ⟨_, _, ⟨rfl, rfl⟩, _, c₁, ⟨Bytes.length_pack .., first⟩, _, _, ⟨rfl, rfl⟩, _, _, ⟨rfl, rfl⟩,
      commands, c', body, _, _, ⟨rfl, rfl⟩, ?_⟩
    simp only [long, if_false, same, bne_self_eq_false, Bool.false_eq_true, reads_pure, and_self]

end Decoder

end EventScript
