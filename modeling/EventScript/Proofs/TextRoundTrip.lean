import EventScript.Proofs.Rebuilding
import EventScript.Proofs.Recovered
import EventScript.Proofs.SeedOrder

namespace EventScript

theorem Operand.anyUnprintable?_eq_none {os : List Operand} :
    anyUnprintable? os = none ↔ ∀ o ∈ os, o.unprintable? = none := by
  induction os with
  | nil => simp [anyUnprintable?]
  | cons o os ih => rw [anyUnprintable?, Option.or_eq_none_iff, ih, List.forall_mem_cons]

theorem Operand.IsSpelled.unprintable? {o : Operand} (spelled : o.IsSpelled) : o.unprintable? = none := by
  induction o using Operand.expr_induction with
  | leaf o notExpr =>
    have here := (isSpelled_leaf notExpr).1 spelled
    cases o with
    | expr op args span => exact absurd rfl (notExpr op args span)
    | message => exact here.elim
    | int => exact if_pos here.isWritable
    | _ => rfl
  | expr op args span ih =>
    obtain ⟨-, each⟩ := isSpelled_expr.1 spelled
    rw [Operand.unprintable?, anyUnprintable?_eq_none]
    intro a isArg
    exact ih a isArg (each a isArg)

namespace MessageCommand

theorem anyUnprintable?_eq_none {commands : List MessageCommand} :
    anyUnprintable? commands = none ↔ ∀ c ∈ commands, c.unprintable? = none := by
  induction commands with
  | nil => simp [anyUnprintable?]
  | cons c commands ih => rw [anyUnprintable?, Option.or_eq_none_iff, ih, List.forall_mem_cons]

theorem IsNormal.unprintable? {command : MessageCommand} (normal : command.IsNormal) :
    command.unprintable? = none := by
  obtain ⟨op, args, span⟩ := command
  unfold IsNormal at normal
  unfold MessageCommand.unprintable?
  split at normal
  · rename_i text
    obtain ⟨bytes, textSpan, same, -⟩ := normal
    obtain rfl : args = _ := same
    rw [if_pos (show (op == MessageOp.textName) = true from text)]
  · rename_i notText
    obtain ⟨m, member, named, fits, arguments⟩ := normal
    have printable : ∀ a ∈ args, a.unprintable? = none := by
      intro a isArg
      obtain ⟨isArgument, -⟩ := arguments a isArg
      cases a with
      | int => exact if_pos isArgument.isWritable
      | text => rfl
      | _ => exact isArgument.elim
    rw [if_neg (show ¬ (op == MessageOp.textName) = true from notText)]
    split
    · rename_i colour
      obtain ⟨value, width, argSpan, rfl⟩ := exists_colour member (named.trans (by simpa using colour)) fits
      exact ite_eq_left_iff.2 fun _ => printable _ List.mem_cons_self
    · exact Operand.anyUnprintable?_eq_none.2 printable

end MessageCommand

theorem Item.WellFormed.unprintable? {item : Item} (wellFormed : item.WellFormed) : item.unprintable? = none := by
  rw [Item.unprintable?, Operand.anyUnprintable?_eq_none]
  intro o isOperand
  cases item with
  | data d => exact (wellFormed.2 o isOperand).2.unprintable?
  | instruction i =>
    obtain ⟨c, -, -, takes⟩ := wellFormed
    by_cases kind : c.layout = .message
    · simp only [Command.Takes, kind] at takes
      obtain ⟨commands, span, same, normal⟩ := takes
      rw [Item.operands, same, List.mem_singleton] at isOperand
      rw [isOperand, Operand.unprintable?, MessageCommand.anyUnprintable?_eq_none]
      exact fun command member => (normal.each command member).unprintable?
    · obtain ⟨_, -, spelled, -⟩ := (Command.takes_iff kind).1 takes
      exact (spelled o isOperand).unprintable?

namespace Script

variable {s s' : Script}

theorem print_eq_ok {text : String} (wellFormed : ∀ item ∈ s.items, item.WellFormed) :
    s.print = .ok text ↔ (∀ e ∈ s.entries, e.1.isWritable = true) ∧ text = s.toText := by
  have none : s.items.findSome? Item.unprintable? = none :=
    List.findSome?_eq_none_iff.2 fun item member => (wellFormed item member).unprintable?
  have keys : (s.entryPoints.any fun e => !e.1.isWritable) = false ↔ ∀ e ∈ s.entries, e.1.isWritable = true := by
    have same (e : EntryPoint × String) : e ∈ s.entryPoints ↔ e ∈ s.entries := (List.mergeSort_perm ..).mem_iff
    simp [List.any_eq_false, same]
  rw [Script.print, none, ← keys]
  cases s.entryPoints.any fun e => !e.1.isWritable with
  | true => simp
  | false => simp [eq_comm]

theorem WellFormed.print (wellFormed : s.WellFormed) : s.print = .ok s.toText :=
  (print_eq_ok wellFormed.items).2 ⟨fun e member => Lexeme.isWritable_of_key (wellFormed.keys e member), rfl⟩

theorem Rebuilds.entryPoints {names : List String} {target : Target} {blocks : List Block}
    (rebuilds : s'.Rebuilds names target s.entryPoints blocks) (distinct : (s.entries.map Prod.fst).Nodup) :
    s'.entryPoints = s.entryPoints := by
  have perm : s'.entries.Perm s.entries := rebuilds.entries ▸ List.mergeSort_perm ..
  exact entryPoints_perm perm distinct

/-- The script that is read from a text is printed to it again. -/
theorem Rebuilds.toText {names : List String} (rebuilds : s'.Rebuilds names s.target.restored s.entryPoints s.blocks)
    (distinct : (s.entries.map Prod.fst).Nodup) : s'.toText = s.toText := by
  refine toText_congr ?_ (rebuilds.entryPoints distinct) rebuilds.blocks
  rw [rebuilds.target, Target.line_restored]

/-- Printing and reading back gives the same script. For a script that was read from any text, or
disassembled from any buffer with keys of entry points that can be written, the text can be read; its
blocks are those of the script but for spans, its entry points are the same, and its target is the
same exactly if it is the globals or the code page has every character of the stage's name. The script
that was read is printed to the same text. -/
theorem parse_print (source : (∃ text, parse text = .ok s) ∨ ∃ data seeds target limit,
      disassemble data seeds target limit = .ok s ∧ ∀ entry offset, (some entry, offset) ∈ seeds →
        ∀ key, entry.key = some key → -2 ^ 31 ≤ key ∧ key ≤ 2 ^ 32 - 1) :
    ∃ text s', s.print = .ok text ∧ parse text = .ok s' ∧
      s'.blocks.map Block.withoutSpans = s.blocks.map Block.withoutSpans ∧
      s'.entries.Perm s.entries ∧ s'.entryPoints = s.entryPoints ∧
      (s'.target = s.target ↔ s.target = .globals ∨
        ∃ name, s.target = .stage name ∧ ∀ c ∈ name.toList, (Text.encodeChar? c).isSome = true) ∧
      s'.print = .ok text := by
  have wellFormed : s.WellFormed := by
    rcases source with ⟨text, parsed⟩ | ⟨data, seeds, target, limit, disassembled, keys⟩
    · exact parse_wellFormed parsed
    · exact disassemble_wellFormed disassembled keys
  obtain ⟨s', parsed, rebuilds⟩ := wellFormed.exists_parse
  refine ⟨s.toText, s', wellFormed.print, parsed, rebuilds.blocks, ?_, rebuilds.entryPoints wellFormed.entries, ?_, ?_⟩
  · rw [rebuilds.entries]
    exact List.mergeSort_perm ..
  · rw [rebuilds.target]
    exact Target.restored_eq_self
  · rw [(parse_wellFormed parsed).print, rebuilds.toText wellFormed.entries]

/-- An event with a block of its own before the first label, a forced width and a message. The code page
has no character for the second byte of the stage's name. -/
def messageText : String :=
  ".stage \"a\\x81\"\n.interact -3, *talk\n\tif eq(flag(3), 1), *talk.w\ntalk:\n" ++
    "\tmsg \"Hello\", speed(2), \"\", \"world\\n\",\n\t\twait(3.b)\n\treturn\n"

theorem parse_print_message : ∃ s, parse messageText = .ok s ∧ ∃ text s', s.print = .ok text ∧ parse text = .ok s' ∧
    s'.blocks.map Block.withoutSpans = s.blocks.map Block.withoutSpans ∧ s'.entryPoints = s.entryPoints ∧
    s'.target ≠ s.target ∧ s'.print = .ok text := by
  have read : (parse messageText).toOption.map Script.target = some (.stage "a\ufffd") := by decide +kernel
  cases parsed : parse messageText with
  | error e =>
    rw [parsed] at read
    cases read
  | ok s =>
    have target : s.target = .stage "a\ufffd" := by simpa [parsed, Except.toOption] using read
    obtain ⟨text, s', printed, back, blocks, -, entries, targets, again⟩ := parse_print (.inl ⟨_, parsed⟩)
    refine ⟨s, rfl, text, s', printed, back, blocks, entries, fun same => ?_, again⟩
    rcases targets.1 same with isGlobals | ⟨name, isStage, encodable⟩
    · rw [target] at isGlobals
      cases isGlobals
    · rw [target] at isStage
      cases isStage
      have lacking : (Text.encodeChar? '\ufffd').isSome = false := by decide +kernel
      rw [encodable '\ufffd' (by decide)] at lacking
      cases lacking

end Script

end EventScript
