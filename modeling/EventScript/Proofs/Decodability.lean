import EventScript.Proofs.Assemblability
import EventScript.Proofs.Cascade
import EventScript.Proofs.Format
import EventScript.Proofs.Narrowing

namespace EventScript

theorem getElem?_of_forall₂ {α β : Type} {rel : α → β → Prop} {xs : List α} {ys : List β}
    (related : List.Forall₂ rel xs ys) {k : Nat} {x : α} (here : xs[k]? = some x) : ∃ y, ys[k]? = some y ∧ rel x y := by
  obtain ⟨inside, rfl⟩ := List.getElem?_eq_some_iff.1 here
  have inside' : k < ys.length := related.length_eq ▸ inside
  exact ⟨ys[k], List.getElem?_eq_getElem inside', related.get inside inside'⟩

theorem Piece.Resolves.settled {addresses : List Nat} {a b : Piece}
    (resolves : Piece.Resolves (addresses.getD · 0) (Pointer.Asks (addresses.getD · 0)) a b) :
    Piece.Resolves (addresses.getD · 0) (fun q w => q.width = w) a (b.settled addresses) := by
  cases resolves with
  | same _ notPointer =>
    cases a with
    | pointer q => exact absurd rfl (notPointer q)
    | _ => exact .same _ notPointer
  | pointer q w fits asks =>
    cases forced : q.forced with
    | true =>
      have width : q.width = w := by simpa [Pointer.Asks, Pointer.target, forced, eq_comm] using asks
      rw [Piece.settled, if_pos forced]
      exact .pointer q w fits width
    | false =>
      have width : .ofAddress (addresses.getD q.block 0 : Nat) = w := by
        simpa [Pointer.Asks, Pointer.target, forced, eq_comm] using asks
      rw [Piece.settled, if_neg (by simp [forced])]
      exact .pointer { q with width := .ofAddress (Code.target addresses q) } w fits width

theorem Code.exists_emitted {addresses : List Nat} {start : Nat} {items : List ItemCode} {bs : Bytes}
    (emitted : emitItems addresses start items = .ok bs) {k : Nat} {item : ItemCode} (here : items[k]? = some item) :
    ∃ b, item.emit addresses (start + ((items.map ItemCode.size).take k).sum + item.size)
        (start + ((items.map ItemCode.size).take k).sum) = .ok b ∧
      b <+: bs.drop ((items.map ItemCode.size).take k).sum := by
  induction items generalizing start bs k with
  | nil => cases here
  | cons first items ih =>
    obtain ⟨b, b', rfl, emittedFirst, rest⟩ := emitItems_cons.1 emitted
    cases k with
    | zero =>
      cases here
      exact ⟨b, by simpa using emittedFirst, by simp⟩
    | succ k =>
      obtain ⟨b₁, emittedItem, inside⟩ := ih rest here
      refine ⟨b₁, ?_, ?_⟩
      · simpa [Nat.add_assoc] using emittedItem
      · have length : b.length = first.size := ItemCode.length_emit emittedFirst
        rw [List.map_cons, List.take_succ_cons, List.sum_cons, ← length, ← List.drop_drop, List.drop_left]
        exact inside

namespace Instruction

theorem Readable.hasCount {size : Nat} {i : Instruction} (readable : i.Readable size) : i.HasCount := by
  obtain ⟨-, c, member, name, operands⟩ := readable
  intro c' member' name' counted
  obtain rfl := Command.eq_of_name member' member (name'.trans name.symm)
  obtain ⟨slots, rest, first, others, splits⟩ := (Command.readable_iff (by simp [counted])).1 operands
  have bound := splits.count counted
  rcases splits.fills.length_counted member counted with ⟨-, short⟩ | ⟨-, fixed⟩ <;> omega

theorem decode_resolve {i : Instruction} {c : Command} (member : c ∈ Command.all) (name : c.name = i.opcode)
    (takes : c.Takes i.operands) {address : String → Nat} {data bs : Bytes}
    (tail : c.layout = .terminated → ∀ value width span, .int value width span ∈ i.operands.drop 1 →
      Bytes.storedValue value (width.getD (.ofLiteral value)).bytes ≠ -1)
    (count : i.HasCount)
    (bounded : ∀ o ∈ i.codeOperands, ∀ t, o.codeAddress? address = some t → t ≤ data.length)
    {code : ItemCode} (lowered : (i.resolve address).lower {} = .ok code) {addresses : List Nat} {start : Nat}
    (emitted : code.emit addresses (start + bs.length) start = .ok bs) (stands : bs <+: data.drop start) :
    Instruction.decode data start = .ok ((i.resolve address).canonical, bs.length) := by
  have survives := survives_resolve member name takes tail (count c member name) bounded
  obtain ⟨readable, code', lowered', emits⟩ := survives.canonical lowered
  exact (decode_eq_ok {} addresses).2 ⟨readable, code', bs, lowered', emits _ _ _ _ emitted, rfl, stands⟩

end Instruction

def Item.instruction? : Item → Option Instruction
  | instruction i => some i
  | data _ => none

theorem Item.instruction?_eq_some {item : Item} {i : Instruction} :
    item.instruction? = some i ↔ item = .instruction i := by
  cases item <;> simp [instruction?]

namespace Script

variable {s : Script} {limit : Nat} {a : Assembled} {k : Nat} {i : Instruction}

theorem exists_stored (assembled : s.assemble limit = .ok a) (here : s.items[k]? = some (.instruction i))
    (proper : i.IsProper) : ∃ start code b addresses, a.layout.itemAddresses[k]? = some start ∧
      (a.layout.itemAddresses ++ [a.layout.size])[k + 1]? = some (start + b.length) ∧ 0 < b.length ∧
      start + b.length ≤ a.bytes.length ∧ b <+: a.bytes.drop start ∧
      (i.resolve (a.layout.address s)).lower {} = .ok code ∧ code.emit addresses (start + b.length) start = .ok b := by
  obtain ⟨c, d, passes, lowered, settled, emitted, layout⟩ := assemble_eq_ok assembled
  rw [layout]
  have settledItems := settle_items lowered settled
  have emittedItems := Code.emit_eq_ok.1 emitted
  obtain ⟨code, inItems, done⟩ := getElem?_of_forall₂ (lower_items lowered) here
  have agree := Instruction.lower_agree (Operand.relabels_resolveReference ((Layout.ofCode d passes).address s))
    (fun _ => .same _) fun leaf =>
      pointersAgree_resolve lowered settled emitted proper (List.mem_of_getElem? inItems) done
  obtain ⟨code', stored, related⟩ := agree.of_ok_left done
  have there : d.items[k]? = some (ItemCode.settled d.blockAddresses code) := by
    rw [settledItems, List.getElem?_map, inItems]
    rfl
  have resolves : List.Forall₂ (Piece.Resolves (d.blockAddresses.getD · 0) fun q w => q.width = w) code'
      (ItemCode.settled d.blockAddresses code) :=
    List.forall₂_map_right_iff.2 (related.flip.imp fun _ _ => Piece.Resolves.settled)
  obtain ⟨b, emittedItem, inside⟩ := Code.exists_emitted emittedItems there
  have length : b.length = (ItemCode.settled d.blockAddresses code).size := ItemCode.length_emit emittedItem
  have before : k < (d.items.map ItemCode.size).length := by
    rw [List.length_map]
    exact (List.getElem?_eq_some_iff.1 there).1
  have starts := getElem?_addressesFrom_append 0 (Nat.le_of_lt before)
  have stops := getElem?_addressesFrom_append 0 before
  rw [List.getElem?_append_left (by rwa [Code.length_addressesFrom])] at starts
  rw [← Nat.zero_add ((d.items.map ItemCode.size).take k).sum] at inside
  have placed (q : Pointer) (inItem : .pointer q ∈ ItemCode.settled d.blockAddresses code) :=
    getElem?_of_lt (ItemCode.target_of_emit emittedItem inItem).1
  rw [← length, ← emit_of_resolves resolves placed] at emittedItem
  have positive : 0 < b.length := by
    have filled : (Item.instruction (i.resolve ((Layout.ofCode d passes).address s))).IsFilled := True.intro
    rw [ItemCode.length_emit emittedItem]
    exact filled.size_pos stored
  have bound := inside.length_le
  rw [List.length_drop] at bound
  refine ⟨_, code', b, d.blockAddresses, starts, ?_, positive, by omega, inside, stored, emittedItem⟩
  have last : (d.items.map ItemCode.size)[k] = b.length := by
    rw [List.getElem_map, (List.getElem?_eq_some_iff.1 there).2, length]
  rw [List.sum_take_succ _ _ before, last, Nat.zero_add, ← Nat.add_assoc] at stops
  exact stops

/-- An instruction is decoded from its own bytes, whatever stands around them, exactly if its count can be read. -/
theorem decode_assemble {text : String} (parsed : parse text = .ok s) (assembled : s.assemble limit = .ok a)
    (here : s.items[k]? = some (.instruction i))
    (tail : ∀ c ∈ Command.all, c.name = i.opcode → c.layout = .terminated → ∀ value width span,
      .int value width span ∈ i.operands.drop 1 → Bytes.storedValue value (width.getD (.ofLiteral value)).bytes ≠ -1) :
    ∃ start stop, a.layout.itemAddresses[k]? = some start ∧
      (a.layout.itemAddresses ++ [a.layout.size])[k + 1]? = some stop ∧ start < stop ∧ stop ≤ a.bytes.length ∧
      ∀ data : Bytes, (data.drop start).take (stop - start) = (a.bytes.drop start).take (stop - start) →
        (∀ o ∈ i.codeOperands, ∀ t, o.codeAddress? (a.layout.address s) = some t → t ≤ data.length) →
        (Instruction.decode data start = .ok ((i.resolve (a.layout.address s)).canonical, stop - start) ↔
          i.HasCount) := by
  obtain ⟨c, member, name, takes⟩ := (parse_wellFormed parsed).items _ (List.mem_of_getElem? here)
  have proper := Instruction.isProper_of_takes member name takes
  obtain ⟨start, code, b, addresses, starts, stops, positive, bound, inside, lowered, emitted⟩ :=
    exists_stored assembled here proper
  refine ⟨start, start + b.length, starts, stops, by omega, bound, fun data same bounded => ?_⟩
  have stands : b <+: data.drop start := by
    rw [Nat.add_sub_cancel_left, ← List.prefix_iff_eq_take.1 inside] at same
    exact same ▸ List.take_prefix ..
  rw [Nat.add_sub_cancel_left]
  constructor
  · intro decoded
    have count := ((Instruction.decode_eq_ok {} addresses).1 decoded).1.hasCount
    intro c' member' name' counted
    have short := count c' member' name' counted
    rwa [Instruction.canonical, List.length_map, Instruction.operands_resolve, List.length_map] at short
  · intro count
    exact Instruction.decode_resolve member name takes (tail c member name) count bounded lowered emitted stands

def branchText : String :=
  ".stage \"s\"\n.startup *main\nmain:\n\t.dd *main\n\tif lt(result, 200.b), else *last\n" ++
    "\tptcl 1, @lead, 1, 70000, *main\nlast:\n\treturn\n"

/-- The condition is decoded from its seven bytes with its literal as they are read and its target as an address, if
the buffer reaches up to that. -/
theorem decode_assemble_branch : ∃ s a i, parse branchText = .ok s ∧ s.assemble 64 = .ok a ∧
    s.items[1]? = some (.instruction i) ∧ a.bytes.take 11 = [0, 0, 0, 0, 5, 2, 33, 200, 30, 33, 31] ∧
    ∀ first rest : Bytes, first.length = 4 → 20 ≤ rest.length →
      Instruction.decode (first ++ [5, 2, 33, 200, 30, 33, 31] ++ rest) 4 = .ok (⟨"if", [.expr "lt"
        [.expr "result" [] none, .int (-56) none none] none, .offset 31 (some .byte) true none], none⟩, 7) := by
  have computed : ((parse branchText).toOption.bind fun s => (s.assemble 64).toOption.bind fun a =>
      (s.items[1]?.bind Item.instruction?).map fun i => (i.opcode, a.layout.itemAddresses, a.bytes.take 11,
        i.codeOperands.filterMap (Operand.codeAddress? (a.layout.address s)))) =
      some ("if", [0, 4, 11, 31], [0, 0, 0, 0, 5, 2, 33, 200, 30, 33, 31], [31]) := by decide +kernel
  obtain ⟨s, parsed, rest⟩ := Option.bind_eq_some_iff.1 computed
  obtain ⟨a, assembled, rest⟩ := Option.bind_eq_some_iff.1 rest
  obtain ⟨i, found, rest⟩ := Option.map_eq_some_iff.1 rest
  obtain ⟨item, here, isInstruction⟩ := Option.bind_eq_some_iff.1 found
  obtain rfl := Item.instruction?_eq_some.1 isInstruction
  simp only [Prod.mk.injEq] at rest
  obtain ⟨opcode, addresses, bytes, targets⟩ := rest
  have plain : ∀ c ∈ Command.all, c.name = "if" → c.layout = .plain := by decide +kernel
  have count : i.HasCount := fun c member name counted => by simp [plain c member (name.trans opcode)] at counted
  obtain ⟨start, stop, starts, stops, -, -, decodes⟩ := decode_assemble (toOption_eq_some.1 parsed)
    (toOption_eq_some.1 assembled) here
    (fun c member name terminated => by simp [plain c member (name.trans opcode)] at terminated)
  obtain rfl : 4 = start := by simpa [addresses] using starts
  obtain rfl : 11 = stop := by simpa [addresses] using stops
  have stored : (a.bytes.drop 4).take 7 = [5, 2, 33, 200, 30, 33, 31] := by
    rw [List.take_drop, bytes]
    rfl
  have each : ∀ first rest : Bytes, first.length = 4 → 20 ≤ rest.length →
      Instruction.decode (first ++ [5, 2, 33, 200, 30, 33, 31] ++ rest) 4 =
        .ok ((i.resolve (a.layout.address s)).canonical, 7) := by
    intro first rest four long
    refine (decodes _ ?_ fun o isCode t leads => ?_).2 count
    · rw [stored, List.append_assoc, List.drop_left' four]
      rfl
    · have target : t ∈ i.codeOperands.filterMap (Operand.codeAddress? (a.layout.address s)) :=
        List.mem_filterMap.2 ⟨o, isCode, leads⟩
      rw [targets, List.mem_singleton] at target
      simp only [List.length_append, List.length_cons, List.length_nil]
      omega
  -- What is decoded does not depend on the other bytes, so that one buffer shows it.
  have zeros := each [0, 0, 0, 0] (List.replicate 20 0) rfl (by simp)
  have shown : Instruction.decode ([0, 0, 0, 0] ++ [5, 2, 33, 200, 30, 33, 31] ++ List.replicate 20 0) 4 =
    .ok (⟨"if", [.expr "lt" [.expr "result" [] none, .int (-56) none none] none, .offset 31 (some .byte) true none],
      none⟩, 7) := rfl
  refine ⟨s, a, i, toOption_eq_some.1 parsed, toOption_eq_some.1 assembled, here, bytes, ?_⟩
  exact fun first rest four long => (each first rest four long).trans (zeros.symm.trans shown)

end Script

theorem Decoder.run_bind_of_reads {α β : Type} {d : Decoder α} {f : α → Decoder β} {c c' : Cursor} {a : α}
    (read : d.Reads c a c') : (d >>= f).run c = (f a).run c' := by
  rw [StateT.run_bind, show d.run c = .ok (a, c') from read]
  rfl

theorem Bytes.storedValue_neg {n : Nat} (large : 2 ^ 31 ≤ n) (small : n < 2 ^ 32) :
    Bytes.storedValue n (Width.ofLiteral n).bytes < 0 := by
  have width : Width.ofLiteral n = .long := by
    unfold Width.ofLiteral
    rw [if_neg (by omega), if_neg (by omega)]
  have stored : Bytes.unsigned (Bytes.pack n 4) = n := Bytes.unsigned_pack_of_lt (by omega)
  simp only [width, Width.bytes, Bytes.storedValue, Bytes.signed, stored, Bytes.length_pack]
  rw [if_neg (by omega)]
  norm_num
  omega

namespace Placement

variable {p : Placement}

theorem size_pos_of_lowerExpr {o : Operand} {code : ItemCode} (proper : o.IsProper)
    (lowered : p.lowerExpr o = .ok code) : 0 < ItemCode.size code := by
  cases o with
  | int value width span =>
    obtain ⟨-, rfl⟩ := lowerInt_eq_ok.1 lowered
    simp [ItemCode.size, Piece.size]
  | label name width isElse span =>
    obtain ⟨_, -, rfl⟩ := map_eq_ok.1 lowered
    simp [ItemCode.size, Piece.size]
  | offset value width isElse span =>
    obtain ⟨_, -, rfl⟩ := map_eq_ok.1 lowered
    simp [ItemCode.size, Piece.size]
  | expr op args span =>
    obtain ⟨⟨operator, member, rfl, isProper⟩, -⟩ := Operand.isProper_expr.1 proper
    obtain ⟨_, -, -, _, -, rfl⟩ := (lowerExpr_parts member isProper).1 lowered
    simp [ItemCode.size, Piece.size]
  | atom name span =>
    obtain ⟨a, -, rfl⟩ := lowerExpr_atom_eq_ok.1 lowered
    simp [ItemCode.size, Piece.size]
  | _ => cases lowered

theorem length_le_size {index : Nat} {others : List Operand} {tail : List ItemCode}
    (proper : ∀ o ∈ others, o.IsProper) (lowered : p.lowerParts index (tailSlots others) others = .ok tail) :
    others.length ≤ ItemCode.size tail.flatten := by
  induction others generalizing index tail with
  | nil => simp
  | cons o others ih =>
    obtain ⟨here, proper⟩ := List.forall_mem_cons.1 proper
    simp only [lowerParts, tailSlots, List.map_cons, List.zip_cons_cons, List.zipIdx_cons, List.mapM_cons, bind_eq_ok,
      pure_eq_ok] at lowered
    obtain ⟨part, first, parts, rest, rfl⟩ := lowered
    have positive : 0 < ItemCode.size part := size_pos_of_lowerExpr here first
    have bound := ih proper rest
    simp only [ItemCode.size, List.flatten_cons, List.map_append, List.sum_append, List.length_cons] at *
    omega

end Placement

theorem Command.Fills.reads_first {c : Command} {os first others : List Operand} {slots rest : Shape}
    (fills : c.Fills os slots rest first others) (member : c ∈ all) (counted : c.layout = .counted)
    (proper : ∀ o ∈ os, o.IsProper) (resolved : ∀ o ∈ os, o.IsResolved) {p : Placement} {parts : List ItemCode}
    (lowered : p.lowerParts 0 slots first = .ok parts) : ∃ bs, ItemCode.Spells parts.flatten bs ∧
      ∀ size depth (cursor cursor' : Cursor), cursor.rest.length ≤ depth → cursor.Advances bs cursor' →
        (Decoder.walkShapes (Decoder.readingWith size (Decoder.expression size depth) c.name) c.name c.shapes).Reads
          cursor (first.map Operand.canonical, rest) cursor' := by
  have table : ∀ c ∈ all, c.layout = .counted → ∀ shape ∈ c.shapes, ∀ slot ∈ shape,
      slot ≠ .elsePointer ∧ slot.leadsToCode = false := by decide +kernel
  have noCode : ∀ x ∈ slots.zip first, x.1 ≠ .elsePointer ∧ x.1.leadsToCode = false := fun x inZip =>
    table c member counted _ fills.form _ (List.mem_append_left _ (List.of_mem_zip inZip).1)
  have inOs : ∀ o ∈ first, o ∈ os := fun o here => fills.split ▸ List.mem_append_left _ here
  have stable : ∀ slot ∈ slots, slot.isStable = true := fun slot inSlots =>
    isStable_of_mem member fills.form (List.mem_append_left _ inSlots)
  obtain ⟨back, stored⟩ := Placement.lowerParts_canonical p fills.accepts stable
    (fun o here => proper o (inOs o here)) (fun o here => resolved o (inOs o here)) lowered
  have same := back.length_eq
  have isRead : ∀ o ∈ first.map Operand.canonical ++ [], o.IsRead := by
    intro o here
    rw [List.append_nil] at here
    obtain ⟨_, -, -, isRead⟩ := exists_left_of_mem back here
    exact isRead
  have fixed : p.lowerFixed 0 slots (first.map Operand.canonical ++ []) = .ok parts.flatten :=
    (Placement.lowerFixed_eq_ok same).2 ⟨parts, stored, rfl⟩
  obtain ⟨bs, spells⟩ := Placement.exists_spells_lowerFixed isRead fixed
  refine ⟨bs, spells, fun size depth cursor cursor' enough advance => ?_⟩
  have admits := admits_canonical size back (fun x inZip isElse => absurd isElse (noCode x inZip).1)
    (fun x inZip leads => by simp [(noCode x inZip).2] at leads)
  apply (Decoder.reads_fixed (p := p) member (by simp [counted]) enough).2
  exact ⟨slots, fills.form, fills.tail, fills.fixed, admits, bs,
    (Placement.lowerFixed_spells same []).1 ⟨_, fixed, spells⟩, advance⟩

theorem Decoder.run_operands_counted {size : Nat} {command : Command} {first : List Operand} {c c₁ c₂ : Cursor}
    {count : Int} {w : Width} (kind : command.layout = .counted)
    (walked : (walkShapes (readingWith size (expression size c.rest.length) command.name) command.name
      command.shapes).Reads c (first, [.variadic]) c₁)
    (advance : c₁.Advances (w.constant count) c₂) (negative : Bytes.storedValue count w.bytes < 0) :
    (operands size command).run c = .error ⟨.argumentCount (Bytes.storedValue count w.bytes), c₁.offset⟩ := by
  have constant : Decoder.constant.Reads c₁ (w, Bytes.pack count w.bytes) c₂ :=
    reads_constant.2 ⟨Bytes.length_pack .., advance⟩
  have goesOn : List.isEmpty [Slot.variadic] = false := rfl
  unfold operands
  simp only [kind]
  rw [run_bind_of_reads (reads_get.2 ⟨rfl, rfl⟩), run_bind_of_reads (reads_offset.2 ⟨rfl, rfl⟩),
    run_bind_of_reads walked]
  simp only [goesOn]
  rw [if_neg (by simp), run_bind_of_reads (reads_offset.2 ⟨rfl, rfl⟩), run_bind_of_reads constant]
  simp only
  rw [if_pos (by simpa [Bytes.storedValue] using Or.inl negative)]
  rfl

namespace Instruction

theorem decode_of_operands {data rest : Bytes} {start : Nat} {c : Command} {e : DecodeError}
    (member : c ∈ Command.all) (here : data.drop start = c.code :: rest)
    (failed : (Decoder.operands data.length c).run ⟨rest, start + 1⟩ = .error e) :
    Instruction.decode data start = .error e := by
  have found : Command.ofCode? c.code = some c := Command.ofCode?_eq_some.2 ⟨member, rfl⟩
  have code : Decoder.byte.Reads ⟨c.code :: rest, start⟩ c.code ⟨rest, start + 1⟩ := Decoder.reads_byte.2 ⟨rfl, rfl⟩
  unfold Instruction.decode Decoder.instruction
  rw [here, Decoder.run_bind_of_reads (Decoder.reads_offset.2 ⟨rfl, rfl⟩), Decoder.run_bind_of_reads code]
  simp only [found]
  rw [StateT.run_bind, failed]
  rfl

theorem exists_argumentCount {i : Instruction} {c : Command} (member : c ∈ Command.all) (name : c.name = i.opcode)
    (counted : c.layout = .counted) (long : 2 ^ 31 + 3 ≤ i.operands.length) (proper : ∀ o ∈ i.operands, o.IsProper)
    (resolved : ∀ o ∈ i.operands, o.IsResolved) {labels : LabelTable} {code : ItemCode}
    (lowered : i.lower labels = .ok code) {addresses : List Nat} {stop start : Nat} {bs data : Bytes}
    (emitted : code.emit addresses stop start = .ok bs) (small : bs.length < 2 ^ 32) (stands : bs <+: data.drop start) :
    ∃ count offset, Instruction.decode data start = .error ⟨.argumentCount count, offset⟩ := by
  obtain ⟨c', member', name', body, stored, rfl⟩ := lower_eq_ok.1 lowered
  obtain rfl := Command.eq_of_name member' member (name'.trans name.symm)
  have noMessage : c'.layout ≠ .message := by simp [counted]
  obtain ⟨shape, chosen⟩ := Command.exists_shapeOf noMessage stored
  obtain ⟨slots, rest, first, others, -, fills⟩ := Command.exists_fills member chosen
  obtain ⟨-, -, parts, tail, loweredParts, loweredTail, rfl⟩ := (fills.lowers_iff member noMessage).1 stored
  obtain ⟨rfl, fixed⟩ : rest = [.variadic] ∧ i.operands.length = others.length + 3 := by
    rcases fills.length_counted member counted with ⟨-, short⟩ | long'
    · omega
    · exact long'
  have length : tail.length = others.length :=
    Placement.lowerParts_length loweredTail (by simp [Placement.tailSlots])
  have arranged : c'.arrange ⟨labels, ⟨i.opcode, 0⟩, i.span⟩ [.variadic] parts tail = parts.flatten ++
      .bytes ((Width.ofLiteral others.length).constant others.length) :: tail.flatten := by
    simp [Command.arrange, counted, Placement.closeTail, length]
  obtain ⟨b₁, spells, reads⟩ := fills.reads_first member counted proper resolved loweredParts
  -- The bytes are those of the code, the fixed operands, the count and the tail.
  rw [arranged, ItemCode.emit_cons] at emitted
  obtain ⟨_, _, rfl, ⟨⟩, emitted⟩ := emitted
  obtain ⟨_, _, rfl, emittedFirst, emitted⟩ := ItemCode.emit_append.1 emitted
  obtain ⟨_, b₂, rfl, ⟨⟩, emittedTail⟩ := ItemCode.emit_cons.1 emitted
  obtain rfl := Except.ok.inj ((ItemCode.emit_of_spells spells).symm.trans emittedFirst)
  have bound := Placement.length_le_size
    (fun o here => proper o (fills.split ▸ List.mem_append_right _ here)) loweredTail
  rw [← ItemCode.length_emit emittedTail] at bound
  simp only [List.length_append] at small
  have negative : Bytes.storedValue others.length (Width.ofLiteral others.length).bytes < 0 :=
    Bytes.storedValue_neg (by omega) (by omega)
  obtain ⟨more, whole⟩ := stands
  let count : Cursor := ⟨(Width.ofLiteral others.length).constant others.length ++ (b₂ ++ more), start + 1 + b₁.length⟩
  have advance : count.Advances _ ⟨b₂ ++ more, _⟩ := ⟨rfl, rfl⟩
  have failed := Decoder.run_operands_counted counted
    (reads data.length _ ⟨b₁ ++ count.rest, start + 1⟩ count le_rfl ⟨rfl, rfl⟩) advance negative
  exact ⟨_, _, decode_of_operands member (by rw [← whole]; simp [count]) failed⟩

theorem exists_error_of_not_hasCount {i : Instruction} (proper : i.IsProper) (noCount : ¬ i.HasCount)
    {address : String → Nat} {code : ItemCode} (lowered : (i.resolve address).lower {} = .ok code)
    {addresses : List Nat} {stop start : Nat} {bs data : Bytes} (emitted : code.emit addresses stop start = .ok bs)
    (small : bs.length < 2 ^ 32) (stands : bs <+: data.drop start) : ∃ e, Instruction.decode data start = .error e := by
  simp only [HasCount, not_forall, Nat.not_lt] at noCount
  obtain ⟨c, member, name, counted, long⟩ := noCount
  have resolved : ∀ o ∈ (i.resolve address).operands, o.IsProper ∧ o.IsResolved := by
    rw [operands_resolve]
    intro o isOperand
    obtain ⟨source, inSource, rfl⟩ := List.mem_map.1 isOperand
    exact ⟨(Operand.relabels_resolveReference address).isProper (proper.operands source inSource),
      Operand.isResolved_resolveReference address source⟩
  have length : (i.resolve address).operands.length = i.operands.length := by rw [operands_resolve, List.length_map]
  obtain ⟨count, offset, failed⟩ := exists_argumentCount (i := i.resolve address) member name counted (by omega)
    (fun o isOperand => (resolved o isOperand).1) (fun o isOperand => (resolved o isOperand).2) lowered emitted small
    stands
  exact ⟨_, failed⟩

end Instruction

namespace Swarm

def leading : List Operand := [.int 1 none none, .atom "lead" none, .int 1 none none]

def instruction (n : Nat) : Instruction := ⟨"ptcl", leading ++ List.replicate n (.expr "result" [] none), none⟩

def script (n : Nat) : Script where
  target := .globals
  blocks := [⟨"main", [.instruction (instruction n)]⟩]
  labels := ⟨[("main", ⟨0, 0⟩)], []⟩

def leadingBytes : Bytes := [33, 1, 24, 220, 0, 0, 0, 33, 1]

def bytes (n : Nat) : Bytes := 38 :: (leadingBytes ++ ((Width.ofLiteral n).constant n ++ List.replicate n 30))

theorem fills (n : Nat) : Command.particles.Fills (instruction n).operands
    [Command.value, .atom .lead, Command.object] [.variadic] leading (List.replicate n (.expr "result" [] none)) where
  split := rfl
  form := by decide
  tail := .inr rfl
  fixed := by decide
  closed := by simp
  accepts := by decide
  acceptsTail o member := by
    rw [List.eq_of_mem_replicate member]
    decide

theorem mem_operands {n : Nat} {o : Operand} (member : o ∈ (instruction n).operands) :
    o = .int 1 none none ∨ o = .atom "lead" none ∨ o = .expr "result" [] none := by
  rcases List.mem_append.1 member with first | tail
  · simp only [leading, List.mem_cons, List.not_mem_nil, or_false] at first
    rcases first with rfl | rfl | rfl <;> simp
  · exact .inr (.inr (List.eq_of_mem_replicate tail))

theorem withoutSpans_instruction (n : Nat) :
    (Item.instruction (instruction n)).withoutSpans = .instruction (instruction n) := by
  have same : (instruction n).operands.map Operand.withoutSpans = (instruction n).operands := by
    rw [List.map_congr_left (g := id), List.map_id]
    intro o member
    rcases mem_operands member with rfl | rfl | rfl <;> rfl
  rw [Item.withoutSpans, same]
  rfl

theorem shapeOf_operands (n : Nat) : Command.particles.shapeOf (instruction n).operands =
    .ok [Command.value, .atom .lead, Command.object, .variadic] := by
  apply ((fills n).shapeOf_iff Command.particles_mem).2
  refine ⟨rfl, fun o member => ?_⟩
  rcases mem_operands member with rfl | rfl | rfl <;> rfl

theorem lowerTail_replicate (p : Placement) (index n : Nat) :
    p.lowerTail false index (List.replicate n (.expr "result" [] none)) = .ok (List.replicate n (.bytes [30])) := by
  induction n generalizing index with
  | zero => rfl
  | succ n ih =>
    apply Placement.lowerTail_cons.2
    exact ⟨by simp, [.bytes [30]], rfl, List.replicate n (.bytes [30]), ih (index + 1), rfl⟩

def code (n : Nat) : ItemCode := [.bytes [38], .bytes [33, 1], .bytes [24, 220, 0, 0, 0], .bytes [33, 1],
  .bytes ((Width.ofLiteral n).constant n)] ++ List.replicate n (.bytes [30])

theorem lower_instruction (labels : LabelTable) (n : Nat) : (instruction n).lower labels = .ok (code n) := by
  apply Instruction.lower_eq_ok.2
  refine ⟨Command.particles, Command.particles_mem, rfl, (code n).tail, ?_, rfl⟩
  have counted : Command.particles.layout = .counted := rfl
  have operands (p : Placement) : p.lowerOperands Command.particles
      ([Command.value, .atom .lead, Command.object] ++ [.variadic]) (instruction n).operands = .ok (code n).tail := by
    apply (Placement.lowerOperands_eq_ok (fills n).fixed (fills n).tail rfl).2
    refine ⟨[.bytes [33, 1], .bytes [24, 220, 0, 0, 0], .bytes [33, 1]], rfl, ?_⟩
    rw [if_neg (by simp), List.length_replicate]
    exact ⟨_, lowerTail_replicate p 3 n, rfl⟩
  simp only [Placement.lowerCommand, counted, shapeOf_operands]
  exact operands _

theorem emit_replicate (addresses : List Nat) (stop address n : Nat) :
    ItemCode.emit addresses stop address (List.replicate n (.bytes [30])) = .ok (List.replicate n 30) := by
  induction n generalizing address with
  | zero => rfl
  | succ n ih => exact ItemCode.emit_cons.2 ⟨[30], List.replicate n 30, rfl, rfl, ih _⟩

theorem emit_code (addresses : List Nat) (stop n : Nat) : (code n).emit addresses stop 0 = .ok (bytes n) := by
  have tail := emit_replicate addresses stop (10 + ((Width.ofLiteral n).constant n).length) n
  exact ItemCode.emit_cons.2 ⟨[38], _, rfl, rfl, ItemCode.emit_cons.2 ⟨[33, 1], _, rfl, rfl,
    ItemCode.emit_cons.2 ⟨[24, 220, 0, 0, 0], _, rfl, rfl, ItemCode.emit_cons.2 ⟨[33, 1], _, rfl, rfl,
      ItemCode.emit_cons.2 ⟨_, _, rfl, rfl, tail⟩⟩⟩⟩⟩

theorem emit_script (n : Nat) : Code.emit [[code n]] = .ok (bytes n) := by
  apply Code.emit_eq_ok.2
  apply Code.emitItems_cons.2
  exact ⟨bytes n, [], by simp, emit_code _ _ n, rfl⟩

theorem pointers_code (n : Nat) : Code.pointers [[code n]] = [] := by
  simp [Code.pointers, Code.items, code, ItemCode.pointers]

theorem lower_script (n : Nat) : (script n).lower = .ok [[code n]] := by
  have item := lower_instruction (script n).labels n
  have blocks : (script n).lowerBlocks = .ok [[code n]] :=
    mapM_eq_ok.2 (.cons (mapM_eq_ok.2 (.cons item .nil)) .nil)
  refine Script.lower_eq_ok.2 ⟨blocks, fun p inCode _ => ?_⟩
  rw [pointers_code] at inCode
  cases inCode

theorem wellFormed_script (n : Nat) : (script n).WellFormed where
  bindings := rfl
  distinct := by simp [script]
  named k b here := by
    obtain rfl := List.mem_singleton.1 (List.mem_of_getElem? here)
    have isLabel : Lexeme.IsLabel "main" := ⟨⟨by decide, by decide⟩, by decide⟩
    exact .inl isLabel
  items item member := by
    obtain rfl : item = .instruction (instruction n) := by simpa [script, Script.items] using member
    refine ⟨Command.particles, Command.particles_mem, rfl, ?_⟩
    apply (Command.takes_iff (by decide)).2
    refine ⟨_, shapeOf_operands n, ?_, ?_, fun terminated => absurd terminated (by decide)⟩
    · intro o member
      rcases mem_operands member with rfl | rfl | rfl
      · simp [Operand.IsSpelled, Operand.walk, Operand.Spelled, Lexeme.InRange]
        decide
      · simp [Operand.IsSpelled, Operand.walk, Operand.Spelled]
        decide
      · have operator : ∃ o ∈ Operator.all, o.name = "result" := by decide +kernel
        obtain ⟨o, inAll, name⟩ := operator
        exact Operand.isSpelled_expr.2 ⟨⟨o, inAll, name, by simp⟩, by simp⟩
    · intro index o here isElse
      exact absurd (Shape.mem_of_slotAt isElse) (by decide)
  keys := by simp [script]
  entryLabels := by simp [script]
  scope := by simp [script]
  entries := by simp [script]
  declared name used := by
    simp only [Script.usedLabels, script, List.map_nil, List.append_nil] at used
    obtain ⟨item, member, used⟩ := List.mem_flatMap.1 used
    obtain rfl : item = .instruction (instruction n) := by simpa [Script.items] using member
    obtain ⟨leaf, inside, isName⟩ := List.mem_filterMap.1 used
    rw [Operand.walkAll_eq_flatMap] at inside
    obtain ⟨o, isOperand, inside⟩ := List.mem_flatMap.1 inside
    rcases mem_operands isOperand with rfl | rfl | rfl <;>
      simp only [Operand.walk, Operand.walkAll, List.mem_singleton] at inside <;> subst inside <;> cases isName

theorem reads_leading (size offset : Nat) (more : Bytes) {depth : Nat}
    (enough : (leadingBytes ++ more).length ≤ depth) :
    (Decoder.walkShapes (Decoder.readingWith size (Decoder.expression size depth) "ptcl") "ptcl"
      Command.particles.shapes).Reads ⟨leadingBytes ++ more, offset⟩ (leading, [.variadic])
        ⟨more, offset + leadingBytes.length⟩ := by
  have admits : List.Forall₂ (Slot.Admits size) [Command.value, .atom .lead, Command.object] leading := by
    have one : (Operand.int 1 none none).IsRead := Operand.isRead_ofConstant (w := .byte) (by decide)
    have lead : (Operand.atom "lead" none).IsRead := (Operand.isRead_leaf (by simp)).2 rfl
    exact .cons ⟨rfl, one, nofun, fun _ => True.intro⟩ (.cons ⟨rfl, lead, nofun, fun _ => True.intro⟩
      (.cons ⟨rfl, one, nofun, fun _ => True.intro⟩ .nil))
  apply (Decoder.reads_fixed (p := ⟨{}, ⟨"ptcl", 0⟩, none⟩) Command.particles_mem (by decide) enough).2
  refine ⟨_, by decide, .inr rfl, by decide, admits, leadingBytes, ?_, rfl, rfl⟩
  apply (Placement.lowerFixed_spells rfl []).1
  exact ⟨_, rfl, [[33, 1], [24, 220, 0, 0, 0], [33, 1]], rfl, rfl⟩

theorem decode_header (rest : Bytes) : Instruction.decode (38 :: (leadingBytes ++ ([24, 0, 0, 0, 128] ++ rest))) 0 =
    .error ⟨.argumentCount (-2 ^ 31), 10⟩ := by
  have stored : Bytes.storedValue (2 ^ 31) Width.long.bytes = -2 ^ 31 := by decide
  have constant : Width.long.constant (2 ^ 31) = [24, 0, 0, 0, 128] := by decide
  have counted : Command.particles.layout = .counted := rfl
  have advance : Cursor.Advances ⟨[24, 0, 0, 0, 128] ++ rest, 1 + leadingBytes.length⟩ (Width.long.constant (2 ^ 31))
      ⟨rest, 15⟩ := by
    rw [constant]
    exact ⟨rfl, rfl⟩
  have failed (size : Nat) := Decoder.run_operands_counted
    (c := ⟨leadingBytes ++ ([24, 0, 0, 0, 128] ++ rest), 1⟩) counted
    (reads_leading size 1 ([24, 0, 0, 0, 128] ++ rest) (Nat.le_refl _)) advance (by rw [stored]; decide)
  rw [stored] at failed
  exact Instruction.decode_of_operands Command.particles_mem rfl (failed _)

theorem exists_assembled (n : Nat) : ∃ s a, Script.parse (script n).toText = .ok s ∧
    s.items.map Item.withoutSpans = [.instruction (instruction n)] ∧ s.assemble = .ok a ∧ a.bytes = bytes n ∧
      a.layout.itemAddresses = [0] := by
  obtain ⟨s, read, same, entries, items⟩ := (wellFormed_script n).exists_sameProgram
  have lower := same.lower
  rw [lower_script] at lower
  obtain ⟨c, lowered, like⟩ := lower.of_ok_left rfl
  have noPointers : Code.growing [[code n]] = [] := by
    rw [Code.growing, pointers_code, List.filter_nil]
  have still : c.growing = [] := like.growing_eq_nil.1 noPointers
  have settled : c.settle defaultPasses = .ok (c, 1) :=
    Code.settle_of_le (n := 0) (fun j less => absurd less (Nat.not_lt_zero j)) still (by decide)
  obtain ⟨_, emitted, rfl⟩ := like.emit.of_ok_left (emit_script n)
  have lengths := Script.length_blockAddresses lowered settled
  obtain ⟨table, made⟩ := (Script.parse_wellFormed read).exists_entryAddresses (l := .ofCode c 1) lengths
  have assembled : s.assemble = .ok ⟨bytes n, table, .ofCode c 1⟩ := by
    apply bind_eq_ok.2
    refine ⟨c, lowered, bind_eq_ok.2 ⟨(c, 1), settled, bind_eq_ok.2 ⟨bytes n, emitted, ?_⟩⟩⟩
    exact bind_eq_ok.2 ⟨table, made, rfl⟩
  refine ⟨s, _, read, ?_, assembled, rfl, ?_⟩
  · rw [← items, Script.items, script, List.flatMap_singleton, List.map_singleton, withoutSpans_instruction]
  · exact congrArg (addressesFrom 0) like.sizes.symm

end Swarm

/-- A list of 2 ^ 31 operands is assembled but not decoded, whatever follows its count. -/
theorem Script.decode_swarm : ∃ s a, parse (Swarm.script (2 ^ 31)).toText = .ok s ∧
    s.items.map Item.withoutSpans = [.instruction (Swarm.instruction (2 ^ 31))] ∧ s.assemble = .ok a ∧
    a.layout.itemAddresses = [0] ∧ Instruction.decode a.bytes 0 = .error ⟨.argumentCount (-2 ^ 31), 10⟩ ∧
    a.bytes.take 15 = [38, 33, 1, 24, 220, 0, 0, 0, 33, 1, 24, 0, 0, 0, 128] ∧
    ∀ rest, Instruction.decode (a.bytes.take 15 ++ rest) 0 = .error ⟨.argumentCount (-2 ^ 31), 10⟩ := by
  obtain ⟨s, a, read, items, assembled, bytes, addresses⟩ := Swarm.exists_assembled (2 ^ 31)
  have count : (Width.ofLiteral (2 ^ 31 : Nat)).constant (2 ^ 31 : Nat) = [24, 0, 0, 0, 128] := by decide
  rw [Swarm.bytes, count] at bytes
  refine ⟨s, a, read, items, assembled, addresses, ?_, ?_, fun rest => ?_⟩
  · rw [bytes, Swarm.decode_header]
  · rw [bytes]
    rfl
  · rw [bytes]
    exact Swarm.decode_header rest

end EventScript
