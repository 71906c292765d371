import EventScript.CommandLine.Run
import EventScript.Proofs.EntryDocument
import EventScript.Proofs.Reassembly
import EventScript.Proofs.WellFormed
import Mathlib.Data.List.Nodup

namespace EventScript

theorem Text.isShort_of_lt {n : Nat} (small : n < 10 ^ 10) : IsShort n :=
  Nat.lt_of_lt_of_le small (Nat.pow_le_pow_right (by decide) (by decide))

theorem Text.Numeral.parse_toString {form : NumeralForm} {value : Int} (short : IsShort value.natAbs) :
    parse form (toString value) = .ok value := by
  have chars := toList_toString value
  by_cases negative : value < 0
  · rw [if_pos negative] at chars
    have ascii : (Nat.toDigits 10 value.natAbs).map toAscii = Nat.toDigits 10 value.natAbs := by
      refine (List.map_congr_left fun c member => ?_).trans (List.map_id _)
      exact (decimal_digit (Nat.isDigit_of_mem_toDigits (by decide) (by decide) member)).2.2.1
    have sign : ('-' :: Nat.toDigits 10 value.natAbs).dropWhile isBlank = '-' :: Nat.toDigits 10 value.natAbs := rfl
    have same : -(value.natAbs : Int) = value := by omega
    simp only [parse, chars, List.map_cons, show toAscii '-' = '-' from rfl, ascii, sign,
      magnitude_toDigits form _ short]
    exact congrArg Except.ok same
  · rw [if_neg negative] at chars
    have same : (value.natAbs : Int) = value := by omega
    rw [← String.ofList_toList (s := toString value), chars, parse_toDigits short, same]

theorem span_colon {before : List Char} (plain : ':' ∉ before) (rest : List Char) :
    (before ++ ':' :: rest).span (· != ':') = (before, ':' :: rest) := by
  have all : ∀ c ∈ before, (c != ':') = true := by
    intro c member
    simp only [bne_iff_ne, ne_eq]
    rintro rfl
    exact plain member
  rw [List.span_eq_takeWhile_dropWhile, List.takeWhile_append_of_pos all, List.dropWhile_append_of_pos all]
  simp

namespace EntryPoint

theorem make_role (e : EntryPoint) : make e.role e.key = .ok e := by
  cases e with
  | event e => cases e <;> rfl
  | interact k => rfl
  | library k => rfl

theorem colon_notMem_role (e : EntryPoint) : ':' ∉ e.role.toList := by
  cases e with
  | event e => cases e <;> decide
  | interact k => exact (by decide : ':' ∉ interactRole.toList)
  | library k => exact (by decide : ':' ∉ libraryRole.toList)

/-- The key of the entry point, if it has one, can be read as a numeral. -/
def HasShortKey (e : EntryPoint) : Prop := ∀ k, e.key = some k → Text.IsShort k.natAbs

theorem parse_toText {e : EntryPoint} (short : e.HasShortKey) : parse e.toText = .ok e := by
  have made := e.make_role
  cases found : e.key with
  | none =>
    rw [found] at made
    have all : e.role.toList.span (· != ':') = (e.role.toList, []) := by
      have plain : ∀ c ∈ e.role.toList, (c != ':') = true := by
        intro c member
        simp only [bne_iff_ne, ne_eq]
        rintro rfl
        exact e.colon_notMem_role member
      rw [List.span_eq_takeWhile_dropWhile, List.takeWhile_eq_self_iff.2 plain, List.dropWhile_eq_nil_iff.2 plain]
    simp only [parse, toText, found, all, List.drop_nil, String.ofList_toList, made]
  | some k =>
    rw [found] at made
    have text : e.toText.toList = e.role.toList ++ ':' :: (toString k).toList := by simp [toText, found]
    have numeral : Text.Numeral.parse .prefixed (toString k) = .ok k := Text.Numeral.parse_toString (short k found)
    unfold parse
    rw [text, span_colon e.colon_notMem_role]
    simp only [List.drop_succ_cons, List.drop_zero]
    split
    · rename_i empty
      rw [Text.toList_toString] at empty
      split at empty
      · cases empty
      · exact absurd empty Nat.toDigits_ne_nil
    · rw [String.ofList_toList, String.ofList_toList, numeral]
      exact made

/-- Order of saved entries, none of which is there twice: by the text of the role, then by key. -/
def Before (a b : EntryPoint) : Prop := a.role < b.role ∨ a.role = b.role ∧ ∃ k ∈ a.key, ∃ k' ∈ b.key, k < k'

theorem savedLe_iff {a b : EntryPoint} :
    a.savedLe b = true ↔ a.role < b.role ∨ a.role = b.role ∧ a.key.getD 0 ≤ b.key.getD 0 := by
  simp [savedLe]

theorem savedLe_trans {a b c : EntryPoint} (first : a.savedLe b = true) (second : b.savedLe c = true) :
    a.savedLe c = true := by
  rw [savedLe_iff] at *
  rcases first with less | ⟨same, key⟩
  · rcases second with less' | ⟨same', -⟩
    · exact .inl (String.lt_trans less less')
    · exact .inl (same' ▸ less)
  · rw [same]
    exact second.imp_right fun ⟨same', key'⟩ => ⟨same', key.trans key'⟩

theorem savedLe_total (a b : EntryPoint) : a.savedLe b = true ∨ b.savedLe a = true := by
  rw [savedLe_iff, savedLe_iff]
  by_cases less : a.role < b.role
  · exact .inl (.inl less)
  · by_cases greater : b.role < a.role
    · exact .inr (.inl greater)
    · have same : a.role = b.role := String.le_antisymm (String.not_lt.1 greater) (String.not_lt.1 less)
      exact (Int.le_total (a.key.getD 0) (b.key.getD 0)).imp (fun key => .inr ⟨same, key⟩)
        fun key => .inr ⟨same.symm, key⟩

theorem eq_of_role {a b : EntryPoint} (role : a.role = b.role) (key : a.key = b.key) : a = b := by
  have made := a.make_role
  rw [role, key, b.make_role] at made
  exact (Except.ok.inj made).symm

theorem isSome_key (e : EntryPoint) : e.key.isSome = [interactRole, libraryRole].contains e.role := by
  cases e with
  | event e => cases e <;> rfl
  | interact | library => rfl

theorem before_of_savedLe {a b : EntryPoint} (le : a.savedLe b = true) (different : a ≠ b) : a.Before b := by
  rcases savedLe_iff.1 le with less | ⟨role, le⟩
  · exact .inl less
  · refine .inr ⟨role, ?_⟩
    have keyed : a.key.isSome = b.key.isSome := by rw [isSome_key, isSome_key, role]
    cases keyA : a.key with
    | none =>
      have keyB : b.key = none := by simpa [keyA] using keyed
      exact absurd (eq_of_role role (keyA.trans keyB.symm)) different
    | some k =>
      obtain ⟨k', keyB⟩ : ∃ k', b.key = some k' := Option.isSome_iff_exists.1 (by rw [← keyed, keyA]; rfl)
      have notSame : k ≠ k' := by
        rintro rfl
        exact different (eq_of_role role (keyA.trans keyB.symm))
      rw [keyA, keyB] at le
      exact ⟨k, rfl, k', keyB, lt_of_le_of_ne le notSame⟩

end EntryPoint

/-- A target can be read back unless it is a stage without a name. -/
theorem Target.parse_toText (t : Target) : parse t.toText = if t = .stage "" then .error ⟨t.toText⟩ else .ok t := by
  cases t with
  | globals => rfl
  | stage name =>
    have text : (Target.stage name).toText.toList = "stage".toList ++ ':' :: name.toList := by simp [toText]
    have other : ((Target.stage name).toText == "globals") = false := by
      rw [beq_eq_false_iff_ne]
      intro same
      rw [same] at text
      cases text
    have kind : ("stage".toList == "stage".toList) = true := rfl
    unfold parse
    rw [text, span_colon (by decide), if_neg (by simp [other])]
    simp only [List.drop_succ_cons, List.drop_zero]
    split
    · rename_i empty
      rw [if_pos (by rw [String.toList_eq_nil_iff.1 empty])]
    · rename_i some
      rw [if_pos kind, if_neg, String.ofList_toList]
      rintro ⟨⟩
      exact some rfl

theorem EntryTable.foldl_put {done entries : EntryTable} (distinct : ((done ++ entries).map Prod.fst).Nodup) :
    entries.foldl (fun t (entry, offset) => t.put entry offset) done = done ++ entries := by
  induction entries generalizing done with
  | nil => simp
  | cons entry entries ih =>
    obtain ⟨entry, offset⟩ := entry
    have fresh : done.any (·.1 == entry) = false := by
      rw [List.any_eq_false]
      intro e member same
      rw [List.map_append, List.nodup_append] at distinct
      exact distinct.2.2 e.1 (List.mem_map_of_mem member) entry (by simp) (by simpa using same)
    have put : EntryTable.put done entry offset = done ++ [(entry, offset)] := by
      simp only [EntryTable.put, fresh, Bool.false_eq_true, if_false]
    rw [List.foldl_cons]
    dsimp only
    rw [put, ih (by simpa using distinct)]
    simp

theorem EntryTable.ofList_eq_self {entries : EntryTable} (distinct : (entries.map Prod.fst).Nodup) :
    EntryTable.ofList entries = entries :=
  EntryTable.foldl_put distinct

namespace EntryFile

variable {f : EntryFile}

theorem mapM_readEntry {entries : EntryTable} (keys : ∀ entry ∈ entries, entry.1.HasShortKey) :
    (entries.map fun entry => (entry.1.toText, Json.integer entry.2)).mapM readEntry = .ok entries := by
  induction entries with
  | nil => rfl
  | cons entry entries ih =>
    obtain ⟨here, others⟩ := List.forall_mem_cons.1 keys
    have first : readEntry (entry.1.toText, .integer entry.2) = .ok entry := by
      rw [readEntry, EntryPoint.parse_toText here]
      rfl
    rw [List.map_cons, List.mapM_cons, first, ih others]
    rfl

theorem nodup_toText {entries : EntryTable} (keys : ∀ entry ∈ entries, entry.1.HasShortKey)
    (distinct : (entries.map Prod.fst).Nodup) : (entries.map (·.1.toText)).Nodup := by
  have texts : entries.map (·.1.toText) = (entries.map Prod.fst).map EntryPoint.toText := by
    rw [List.map_map]
    rfl
  rw [texts]
  refine List.Nodup.map_on (fun a isFirst b isSecond same => ?_) distinct
  obtain ⟨x, memberX, rfl⟩ := List.mem_map.1 isFirst
  obtain ⟨y, memberY, rfl⟩ := List.mem_map.1 isSecond
  have first := EntryPoint.parse_toText (keys x memberX)
  rw [same, EntryPoint.parse_toText (keys y memberY)] at first
  exact (Except.ok.inj first).symm

theorem parse_toText_of_short (keys : ∀ entry ∈ f.entries, entry.1.HasShortKey)
    (distinct : (f.entries.map Prod.fst).Nodup) (short : ∀ entry ∈ f.entries, Text.IsShort entry.2.natAbs) :
    parse f.toText =
      if f.target = .stage "" then .error (.target ⟨f.target.toText⟩) else .ok ⟨f.target, f.sortedEntries⟩ := by
  have perm : f.sortedEntries.Perm f.entries := List.mergeSort_perm ..
  have read : (f.sortedEntries.map fun entry => (entry.1.toText, Json.integer entry.2)).mapM readEntry =
      .ok f.sortedEntries :=
    mapM_readEntry fun entry member => keys entry (perm.mem_iff.1 member)
  have table : EntryTable.ofList f.sortedEntries = f.sortedEntries :=
    EntryTable.ofList_eq_self ((perm.map _).nodup_iff.2 distinct)
  have targetMember value : Json.get? [(targetKey, Json.string f.target.toText), (entriesKey, value)] targetKey =
      some (.string f.target.toText) := rfl
  have entriesMember value : Json.get? [(targetKey, Json.string f.target.toText), (entriesKey, value)] entriesKey =
      some value := rfl
  rw [parse, (json_toText f (nodup_toText keys distinct)).1 short]
  simp only [Except.mapError, Bind.bind, Except.bind, readTarget, readEntries, targetMember, entriesMember, read,
    Except.map, table, Target.parse_toText]
  by_cases unnamed : f.target = .stage ""
  · simp only [if_pos unnamed]
  · simp only [if_neg unnamed]
    rfl

def IsReadable (f : EntryFile) : Prop :=
  f.target ≠ .stage "" ∧ ∀ entry ∈ f.entries, Text.IsShort entry.2.natAbs

/-- A readable entry file is read to the same target and entries after it was written, any other not
at all. -/
theorem parse_toText (keys : ∀ entry ∈ f.entries, entry.1.HasShortKey) (distinct : (f.entries.map Prod.fst).Nodup) :
    (f.IsReadable → parse f.toText = .ok ⟨f.target, f.sortedEntries⟩) ∧
      (¬ f.IsReadable → ∃ e, parse f.toText = .error e) := by
  constructor
  · rintro ⟨named, short⟩
    rw [parse_toText_of_short keys distinct short, if_neg named]
  · intro unreadable
    by_cases short : ∀ entry ∈ f.entries, Text.IsShort entry.2.natAbs
    · rw [parse_toText_of_short keys distinct short, if_pos]
      · exact ⟨_, rfl⟩
      · by_contra named
        exact unreadable ⟨named, short⟩
    · obtain ⟨entry, member, tooLong⟩ : ∃ entry ∈ f.entries, ¬ Text.IsShort entry.2.natAbs := by
        simpa only [not_forall, exists_prop] using short
      obtain ⟨e, failed⟩ := (json_toText f (nodup_toText keys distinct)).2 ⟨entry, member, tooLong⟩
      rw [parse, failed]
      exact ⟨_, rfl⟩

theorem sortedEntries_ordered (distinct : (f.entries.map Prod.fst).Nodup) :
    f.sortedEntries.Pairwise fun a b => a.1.Before b.1 := by
  have sorted : f.sortedEntries.Pairwise fun a b => a.1.savedLe b.1 = true := by
    refine List.pairwise_mergeSort ?_ ?_ f.entries
    · intro a b c
      exact EntryPoint.savedLe_trans
    · intro a b
      simpa using EntryPoint.savedLe_total a.1 b.1
  have perm : f.sortedEntries.Perm f.entries := List.mergeSort_perm ..
  have different : f.sortedEntries.Pairwise fun a b => a.1 ≠ b.1 :=
    List.pairwise_map.1 ((perm.map Prod.fst).nodup_iff.2 distinct)
  exact sorted.imp₂ (fun a b le differ => EntryPoint.before_of_savedLe le differ) different

/-- What was saved is read back, in order: for every target with a name, and entry points and offsets that can be read
as numerals. -/
theorem parse_toText_inOrder (named : f.target ≠ .stage "") (keys : ∀ entry ∈ f.entries, entry.1.HasShortKey)
    (offsets : ∀ entry ∈ f.entries, Text.IsShort entry.2.natAbs) (distinct : (f.entries.map Prod.fst).Nodup) :
    ∃ read, parse f.toText = .ok ⟨f.target, read⟩ ∧ read.Perm f.entries ∧
      read.Pairwise fun a b => a.1.Before b.1 := by
  have perm : f.sortedEntries.Perm f.entries := List.mergeSort_perm ..
  exact ⟨f.sortedEntries, (parse_toText keys distinct).1 ⟨named, offsets⟩, perm, sortedEntries_ordered distinct⟩

def longOffset : Nat := 10 ^ Text.maxDecimalDigits - 1

def escapedFile : EntryFile where
  target := .stage "a:\"\\\x00\n😀"
  entries := [(.library (-3), -longOffset), (.event .startup, 7), (.interact 10, 0), (.library (-20), 0)]

theorem parse_toText_inOrder_escaped :
    (escapedFile.target ≠ .stage "" ∧ (∀ entry ∈ escapedFile.entries, entry.1.HasShortKey) ∧
      (∀ entry ∈ escapedFile.entries, Text.IsShort entry.2.natAbs) ∧ (escapedFile.entries.map Prod.fst).Nodup) ∧
    ∃ read, parse escapedFile.toText = .ok ⟨escapedFile.target, read⟩ ∧ read.Perm escapedFile.entries ∧
      read.Pairwise fun a b => a.1.Before b.1 := by
  have named : escapedFile.target ≠ .stage "" := by decide
  have keys : ∀ entry ∈ escapedFile.entries, entry.1.HasShortKey := by
    simp only [escapedFile, List.forall_mem_cons]
    refine ⟨?_, nofun, ?_, ?_, nofun⟩
    all_goals
      rintro k ⟨⟩
      exact Text.isShort_of_lt (by decide)
  have offsets : ∀ entry ∈ escapedFile.entries, Text.IsShort entry.2.natAbs := by
    have long : Text.IsShort longOffset := Nat.sub_lt (Nat.pow_pos (by decide)) Nat.one_pos
    simp only [escapedFile, List.forall_mem_cons]
    refine ⟨?_, Text.isShort_of_lt (by decide), Text.isShort_of_lt (by decide), Text.isShort_of_lt (by decide), nofun⟩
    rwa [Int.natAbs_neg, Int.natAbs_natCast]
  have distinct : (escapedFile.entries.map Prod.fst).Nodup := by decide
  exact ⟨⟨named, keys, offsets, distinct⟩, parse_toText_inOrder named keys offsets distinct⟩

end EntryFile

namespace CommandLine

theorem unifyLineEnds_eq_self {cs : List Char} (plain : '\r' ∉ cs) : unifyLineEnds cs = cs := by
  induction cs with
  | nil => rfl
  | cons c cs ih =>
    rw [List.mem_cons, not_or] at plain
    rw [unifyLineEnds, ih plain.2]
    · exact fun _ same _ => plain.1 same.symm
    · exact fun same => plain.1 same.symm

theorem decodeText?_encodeText {text : String} (plain : '\r' ∉ text.toList) :
    decodeText? (encodeText text) = some text := by
  have bytes : (⟨(encodeText text).toArray⟩ : ByteArray) = text.toUTF8 := by simp [encodeText]
  have decoded : String.fromUTF8? text.toUTF8 = some text := dif_pos text.isValidUTF8
  rw [decodeText?, bytes, decoded, Option.map_some, unifyLineEnds_eq_self plain, String.ofList_toList]

end CommandLine

namespace Json

theorem return_notMem_escapeUnit (n : Nat) : '\r' ∉ (escapeUnit n).toList := by
  have digits : '\r' ∉ Nat.toDigits 16 n := fun member => by
    have := Text.isHexDigit_of_mem_toDigits member
    exact absurd this (by decide)
  simp [escapeUnit, Text.toList_hexPadded, digits]

theorem return_notMem_writeString (s : String) : '\r' ∉ (writeString s).toList := by
  have each (c : Char) : '\r' ∉ (writeChar c).toList := by
    unfold writeChar
    split
    · rename_i letter char found
      have letters : ∀ pair ∈ escapes, pair.1 ≠ '\r' := by decide
      simpa using (letters _ (List.mem_of_find?_eq_some found)).symm
    · dsimp only
      split
      · rename_i visible
        rw [show c.toString.toList = [c] from String.toList_singleton c, List.mem_singleton]
        rintro rfl
        exact absurd visible.1 (by decide)
      · split
        · exact return_notMem_escapeUnit _
        · simp [return_notMem_escapeUnit]
  simp [writeString, String.toList_join, each]

end Json

namespace EntryFile

theorem return_notMem_toText (f : EntryFile) : '\r' ∉ f.toText.toList := by
  have number (value : Int) : '\r' ∉ value.repr.toList := by
    have digits : '\r' ∉ Nat.toDigits 10 value.natAbs := fun member => by
      have := Nat.isDigit_of_mem_toDigits (by decide) (by decide) member
      exact absurd this (by decide)
    rw [show value.repr.toList = _ from Text.toList_toString value]
    split <;> simp [digits]
  have entries (entries : EntryTable) : '\r' ∉ (writeEntries entries).toList := by
    cases entries with
    | nil => decide
    | cons entry entries =>
      have text := toList_writeEntries entry entries []
      rw [List.append_nil] at text
      simp [text, memberChars, furtherChars, toList_writeEntry, Json.return_notMem_writeString, number]
  simp [toList_toText, Json.return_notMem_writeString, entries]

end EntryFile

namespace CommandLine.Request

/-- The entries of a script that was read from text: every entry point once, and with a key that can
be read. -/
theorem savedEntryFile_keys {text : String} {s : Script} {limit : Nat} {a : Assembled}
    (parsed : Script.parse text = .ok s) (assembled : s.assemble limit = .ok a) :
    (∀ entry ∈ (savedEntryFile s a).entries, entry.1.HasShortKey) ∧
      ((savedEntryFile s a).entries.map Prod.fst).Nodup := by
  have wellFormed := Script.parse_wellFormed parsed
  obtain ⟨_, -, rest⟩ := bind_eq_ok.1 assembled
  obtain ⟨⟨code, passes⟩, -, rest⟩ := bind_eq_ok.1 rest
  obtain ⟨bytes, -, rest⟩ := bind_eq_ok.1 rest
  obtain ⟨table, placed, rest⟩ := bind_eq_ok.1 rest
  cases rest
  have keys := Script.keys_entryAddresses placed
  have saved : (savedEntryFile s ⟨bytes, table, .ofCode code passes⟩).entries.map Prod.fst =
      table.map Prod.fst := by
    simp [savedEntryFile]
  refine ⟨fun entry member k isKey => ?_, saved ▸ keys.nodup_iff.2 wellFormed.entries⟩
  obtain ⟨e, isEntry, same⟩ := List.mem_map.1 (keys.mem_iff.1 (saved ▸ List.mem_map_of_mem member))
  obtain ⟨low, high⟩ := wellFormed.keys e isEntry k (same ▸ isKey)
  refine Text.isShort_of_lt ?_
  unfold Lexeme.leastLiteral Lexeme.greatestLiteral at *
  omega

/-- The saved entry file of a script that was read from text can be read exactly if the script is for
no stage without a name and no address has too many digits. What is read has the target of the script
and the assembled offsets. -/
theorem reads_savedEntryFile {text : String} {s : Script} {limit : Nat} {a : Assembled}
    (parsed : Script.parse text = .ok s) (assembled : s.assemble limit = .ok a) :
    ∃ saved, decodeText? (encodeText (savedEntryFile s a).toText) = some saved ∧
      ((∃ f, EntryFile.parse saved = .ok f) ↔ s.target ≠ .stage "" ∧ ∀ e ∈ a.entries, Text.IsShort e.2) ∧
      ∀ f, EntryFile.parse saved = .ok f →
        f.target = s.target ∧ f.entries.Perm (a.entries.map fun e => (e.1, (e.2 : Int))) := by
  obtain ⟨keys, distinct⟩ := savedEntryFile_keys parsed assembled
  obtain ⟨reads, fails⟩ := EntryFile.parse_toText keys distinct
  have readable : (savedEntryFile s a).IsReadable ↔
      s.target ≠ .stage "" ∧ ∀ e ∈ a.entries, Text.IsShort e.2 :=
    and_congr_right fun _ => List.forall_mem_map
  rw [← readable]
  refine ⟨_, decodeText?_encodeText (EntryFile.return_notMem_toText _),
    ⟨?_, fun isReadable => ⟨_, reads isReadable⟩⟩, ?_⟩
  · rintro ⟨f, read⟩
    by_contra unreadable
    obtain ⟨e, failed⟩ := fails unreadable
    rw [read] at failed
    cases failed
  · intro f read
    by_cases isReadable : (savedEntryFile s a).IsReadable
    · rw [reads isReadable] at read
      cases read
      exact ⟨rfl, List.mergeSort_perm ..⟩
    · obtain ⟨e, failed⟩ := fails isReadable
      rw [read] at failed
      cases failed

theorem assembled_of_computed (text : String) (target : Target) (entries : List (EntryPoint × Nat))
    (computed : (Script.parse text).toOption.bind (fun s =>
      (s.assemble defaultPasses).toOption.map fun a => (s.target, a.entries)) = some (target, entries)) :
    ∃ s a, Script.parse text = .ok s ∧ s.assemble defaultPasses = .ok a ∧
      s.target = target ∧ a.entries = entries := by
  obtain ⟨s, parsed, assembled⟩ := Option.bind_eq_some_iff.1 computed
  obtain ⟨a, assembled, same⟩ := Option.map_eq_some_iff.1 assembled
  obtain ⟨target, entries⟩ := Prod.mk.inj same
  exact ⟨s, a, toOption_eq_some.1 parsed, toOption_eq_some.1 assembled, target, entries⟩

def handlerText : String :=
  ".stage \"a\\\"\\xe9\"\n.interact -20, *talk\nmain:\n\treturn\ntalk:\n\treturn\n"

theorem reads_savedEntryFile_handler : ∃ s a saved f, Script.parse handlerText = .ok s ∧
    s.assemble defaultPasses = .ok a ∧ s.target = .stage "a\"é" ∧
    decodeText? (encodeText (savedEntryFile s a).toText) = some saved ∧ EntryFile.parse saved = .ok f ∧
    f.target = .stage "a\"é" ∧ f.entries.Perm [(.interact (-20), 1)] := by
  obtain ⟨s, a, parsed, assembled, target, entries⟩ :=
    assembled_of_computed handlerText (.stage "a\"é") [(.interact (-20), 1)] (by decide +kernel)
  obtain ⟨saved, kept, readable, agrees⟩ := reads_savedEntryFile parsed assembled
  obtain ⟨f, read⟩ := readable.2 ⟨by simp [target], by simp [entries, Text.isShort_of_lt]⟩
  obtain ⟨sameTarget, perm⟩ := agrees f read
  refine ⟨s, a, saved, f, parsed, assembled, target, kept, read, sameTarget.trans target, ?_⟩
  rwa [entries] at perm

/-- A stage without a name. -/
def namelessText : String := ".stage \"\"\n.startup *main\nmain:\n\treturn\n"

theorem savedEntryFile_nameless : ∃ s a, Script.parse namelessText = .ok s ∧ s.assemble defaultPasses = .ok a ∧
    EntryFile.parse (savedEntryFile s a).toText = .error (.target ⟨"stage:"⟩) := by
  obtain ⟨s, a, parsed, assembled, target, entries⟩ :=
    assembled_of_computed namelessText (.stage "") [(.event .startup, 0)] (by decide +kernel)
  obtain ⟨keys, distinct⟩ := savedEntryFile_keys parsed assembled
  have short : ∀ entry ∈ (savedEntryFile s a).entries, Text.IsShort entry.2.natAbs := by
    simp [savedEntryFile, entries, Text.isShort_of_lt]
  refine ⟨s, a, parsed, assembled, ?_⟩
  rw [EntryFile.parse_toText_of_short keys distinct short, show (savedEntryFile s a).target = _ from target]
  rfl

end CommandLine.Request

end EventScript
