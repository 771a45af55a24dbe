import IocpTest.Protobuf.Fishing

/-!
# What a generated parser accepts

A byte string has a meaning as a message when it is a sequence of tokens. The parser of a
class finds that meaning, whichever shortcuts it takes (`parseFromArray_iff`), and so reads
two messages one behind the other as the one merged into the other
(`parseFromArray_append`).
-/

namespace IocpTest.Protobuf

open Bytes Varint

variable {D : Descriptor}

/-- The token at the start of a byte string, and what follows it. -/
def nextToken (D : Descriptor) (bs : List Byte) : Option (Token D × List Byte) :=
  let (tag, rest) := readTag bs
  if tag = 0#32 then none
  else
    match D.find (getTagFieldNumber tag), getTagWireType tag with
    | some i, some .varint => readField i rest
    | _, some .endGroup => none
    | _, _ => (skipUnknown tag rest).map fun r => (.unknown r.1, r.2)

/-- The byte string is a sequence of tokens. -/
inductive Tokens (D : Descriptor) : List Byte → List (Token D) → Prop
  | nil : Tokens D [] []
  | cons {bs rest : List Byte} {token : Token D} {tokens : List (Token D)} :
      nextToken D bs = some (token, rest) → Tokens D rest tokens → Tokens D bs (token :: tokens)

/-! ## The switch -/

theorem Descriptor.find_eq_some_iff {number : FieldNumber} {i : D.Index} :
    D.find number = some i ↔ (D.field i).number = number := by
  constructor
  · intro found
    simpa using List.find?_some found
  · intro same
    have some : (D.find number).isSome := by
      rw [Descriptor.find, List.find?_isSome]
      exact ⟨i, List.mem_finRange i, by simpa using same⟩
    obtain ⟨j, found⟩ := Option.isSome_iff_exists.mp some
    have other : (D.field j).number = number := by simpa using List.find?_some found
    have both : D.field i = D.field j := List.inj_on_of_nodup_map D.distinct
      (List.get_mem _ i) (List.get_mem _ j) (same.trans other.symm)
    have index : i = j := (List.Nodup.get_inj_iff (.of_map _ D.distinct)).mp both
    rw [found, index]

theorem Descriptor.tag_ne_zero (i : D.Index) : (D.field i).tag ≠ 0#32 :=
  makeTag_ne_zero (.inl (D.small _ (List.get_mem _ i)).1)

theorem FieldType.forward_read (number : FieldNumber) (type : FieldType) :
    Forward (type.read number) := by
  cases type with
  | int32 => exact forward_readVarint32.map Sum.inl
  | int64 => exact forward_readVarint64.map Sum.inl
  | enum isValid => exact forward_readVarint32.map (checkEnum isValid number)

theorem forward_readField (i : D.Index) : Forward (readField i) :=
  ((D.field i).type.forward_read (D.field i).number).map fun r => r.elim (Token.field i) .unknown

/-- A value takes at least one byte. -/
theorem FieldType.read_shorter {number : FieldNumber} {type : FieldType} {bs rest : List Byte}
    {r : type.Value ⊕ UnknownField} (found : type.read number bs = some (r, rest)) :
    rest.length < bs.length := by
  cases type with
  | int32 | enum isValid =>
      obtain ⟨⟨value, rest'⟩, read, eq⟩ := Option.map_eq_some_iff.mp found
      obtain ⟨_, rfl⟩ := Prod.mk.inj eq
      exact readVarint32_shorter read
  | int64 =>
      obtain ⟨⟨value, rest'⟩, read, eq⟩ := Option.map_eq_some_iff.mp found
      obtain ⟨_, rfl⟩ := Prod.mk.inj eq
      exact readVarint64_shorter read

theorem readField_shorter {i : D.Index} {bs rest : List Byte} {token : Token D}
    (found : readField i bs = some (token, rest)) : rest.length < bs.length := by
  obtain ⟨⟨r, rest'⟩, read, eq⟩ := Option.map_eq_some_iff.mp found
  obtain ⟨_, rfl⟩ := Prod.mk.inj eq
  exact FieldType.read_shorter read

/-! ## Tokens -/

theorem nextToken_of_readTag {bs rest : List Byte} {i : D.Index}
    (read : readTag bs = ((D.field i).tag, rest)) : nextToken D bs = readField i rest := by
  have found : D.find (getTagFieldNumber (D.field i).tag) = some i :=
    Descriptor.find_eq_some_iff.mpr (by simp [FieldDecl.tag])
  have wire : getTagWireType (D.field i).tag = some .varint := by simp [FieldDecl.tag]
  simp only [nextToken, read, if_neg (D.tag_ne_zero i), found, wire]

/-- The shortcut goes where the loop goes. -/
theorem nextToken_of_expectNext {bs rest : List Byte} {i j : D.Index}
    (found : expectNext i bs = some (j, rest)) :
    nextToken D bs = readField j rest ∧ rest.length < bs.length := by
  rw [expectNext] at found
  split at found
  · obtain ⟨rest', expected, eq⟩ := Option.map_eq_some_iff.mp found
    obtain ⟨rfl, rfl⟩ := Prod.mk.inj eq
    have read := readTag_of_expectTag expected
    exact ⟨nextToken_of_readTag read, readTag_shorter read (D.tag_ne_zero _)⟩
  · cases found

@[simp] theorem nextToken_nil : nextToken D [] = none := by simp [nextToken, readTag]

theorem skipUnknown_spec {tag : Uint32} {bs rest : List Byte} {field : UnknownField}
    (found : skipUnknown tag bs = some (field, rest)) :
    Skipped (2 * bs.length + 2) 0 tag bs field rest :=
  skipField_fits found

/-- A declared field, the end of a group, or something to skip. -/
theorem Descriptor.dispatch_cases (D : Descriptor) (tag : Uint32) :
    (∃ i, D.find (getTagFieldNumber tag) = some i ∧ getTagWireType tag = some .varint) ∨
      getTagWireType tag = some .endGroup ∨
      ((∀ i, D.find (getTagFieldNumber tag) = some i → getTagWireType tag ≠ some .varint) ∧
        getTagWireType tag ≠ some .endGroup) := by
  by_cases ends : getTagWireType tag = some .endGroup
  · exact .inr (.inl ends)
  · by_cases declared : ∃ i, D.find (getTagFieldNumber tag) = some i ∧
        getTagWireType tag = some .varint
    · exact .inl declared
    · exact .inr (.inr ⟨fun i found wire => declared ⟨i, found, wire⟩, ends⟩)

theorem nextToken_of_uninterpreted {bs rest : List Byte} {tag : Uint32}
    (read : readTag bs = (tag, rest)) (valid : tag ≠ 0#32)
    (other : ∀ i, D.find (getTagFieldNumber tag) = some i → getTagWireType tag ≠ some .varint)
    (ends : getTagWireType tag ≠ some .endGroup) :
    nextToken D bs = (skipUnknown tag rest).map fun r => (.unknown r.1, r.2) := by
  simp only [nextToken, read, if_neg valid]

/-- What `nextToken` reads: a tag, and then a declared field or an unknown one. -/
theorem nextToken_cases {bs rest : List Byte} {token : Token D}
    (found : nextToken D bs = some (token, rest)) :
    ∃ tag behind, readTag bs = (tag, behind) ∧ tag ≠ 0#32 ∧
      ((∃ i, D.find (getTagFieldNumber tag) = some i ∧ getTagWireType tag = some .varint ∧
          readField i behind = some (token, rest)) ∨
        ((∀ i, D.find (getTagFieldNumber tag) = some i → getTagWireType tag ≠ some .varint) ∧
          getTagWireType tag ≠ some .endGroup ∧
          ∃ field, token = .unknown field ∧ skipUnknown tag behind = some (field, rest))) := by
  obtain ⟨tag, behind, read⟩ : ∃ tag behind, readTag bs = (tag, behind) := ⟨_, _, rfl⟩
  simp only [nextToken, read] at found
  split_ifs at found with zero
  refine ⟨tag, behind, read, zero, ?_⟩
  split at found
  · next i declared wire => exact .inl ⟨i, declared, wire, found⟩
  · cases found
  · next ends other =>
      obtain ⟨⟨field, rest'⟩, skipped, eq⟩ := Option.map_eq_some_iff.mp found
      obtain ⟨rfl, rfl⟩ := Prod.mk.inj eq
      refine .inr ⟨?_, ?_, field, rfl, skipped⟩
      · intro i declared wire
        exact other i declared wire
      · intro wire
        exact ends wire

/-- A token is complete: it is found in front of any further bytes. -/
theorem nextToken_append {bs rest : List Byte} {token : Token D}
    (found : nextToken D bs = some (token, rest)) (more : List Byte) :
    nextToken D (bs ++ more) = some (token, rest ++ more) := by
  obtain ⟨tag, behind, read, zero, known | unknown⟩ := nextToken_cases found
  · obtain ⟨i, declared, wire, field⟩ := known
    simp only [nextToken, readTag_append read zero, if_neg zero, declared, wire]
    exact (forward_readField i).append field more
  · obtain ⟨other, ends, field, rfl, skipped⟩ := unknown
    have longer : 2 * behind.length + 2 ≤ 2 * (behind ++ more).length + 2 := by
      simp only [List.length_append]
      omega
    have skip := (skipUnknown_spec skipped).append longer more
    rw [nextToken_of_uninterpreted (readTag_append read zero more) zero other ends, skipUnknown,
      skip, Option.map_some]

theorem tokens_nil_iff {tokens : List (Token D)} : Tokens D [] tokens ↔ tokens = [] := by
  constructor
  · rintro (_ | ⟨found, _⟩)
    · rfl
    · simp at found
  · rintro rfl
    exact .nil

theorem tokens_iff {bs : List Byte} {tokens : List (Token D)} (some : bs ≠ []) :
    Tokens D bs tokens ↔ ∃ token rest later,
      nextToken D bs = .some (token, rest) ∧ Tokens D rest later ∧ tokens = token :: later := by
  constructor
  · rintro (_ | ⟨found, later⟩)
    · exact absurd rfl some
    · exact ⟨_, _, _, found, later, rfl⟩
  · rintro ⟨token, rest, later, found, tokens, rfl⟩
    exact .cons found tokens

theorem Tokens.append {a b : List Byte} {first second : List (Token D)}
    (here : Tokens D a first) (there : Tokens D b second) :
    Tokens D (a ++ b) (first ++ second) := by
  induction here with
  | nil => exact there
  | cons found _ ih => exact .cons (nextToken_append found b) ih

/-! ## The parser -/

/-- What a run of the parser has to do with the tokens that are left. -/
def Absorbs (m m' : Message D) (bs : List Byte) : Prop :=
  ∃ tokens, Tokens D bs tokens ∧ m' = tokens.foldl Message.absorb m

theorem absorbs_iff {m m' : Message D} {bs : List Byte} (some : bs ≠ []) :
    Absorbs m m' bs ↔
      ∃ token rest, nextToken D bs = .some (token, rest) ∧ Absorbs (m.absorb token) m' rest := by
  simp only [Absorbs, tokens_iff some]
  constructor
  · rintro ⟨_, ⟨token, rest, later, found, tokens, rfl⟩, same⟩
    exact ⟨token, rest, found, later, tokens, same⟩
  · rintro ⟨token, rest, found, later, tokens, same⟩
    exact ⟨_, ⟨token, rest, later, found, tokens, rfl⟩, same⟩

/-- Behind a field the parser goes on as `mergeLoop` would, through the shortcut or not. -/
theorem parseField_iff {fuel : Nat}
    (loop : ∀ {bs : List Byte} {m m' : Message D}, bs.length < fuel →
      (mergeLoop fuel bs m = .finished m' ↔ Absorbs m m' bs))
    (field : ∀ {i : D.Index} {bs : List Byte} {m m' : Message D}, bs.length < fuel →
      (parseField fuel i bs m = .finished m' ↔
        ∃ token rest, readField i bs = some (token, rest) ∧ Absorbs (m.absorb token) m' rest))
    {i : D.Index} {bs : List Byte} {m m' : Message D} (short : bs.length < fuel + 1) :
    parseField (fuel + 1) i bs m = .finished m' ↔
      ∃ token rest, readField i bs = some (token, rest) ∧ Absorbs (m.absorb token) m' rest := by
  cases found : readField i bs with
  | none => simp [parseField, found]
  | some r =>
      obtain ⟨token, rest⟩ := r
      have shorter := readField_shorter found
      suffices parseField (fuel + 1) i bs m = .finished m' ↔ Absorbs (m.absorb token) m' rest by
        simpa using this
      cases shortcut : expectNext i rest with
      | none =>
          simp only [parseField, found, shortcut]
          exact loop (by omega)
      | some r =>
          obtain ⟨j, behind⟩ := r
          obtain ⟨same, less⟩ := nextToken_of_expectNext shortcut
          simp only [parseField, found, shortcut]
          have some : rest ≠ [] := List.ne_nil_of_length_pos (by omega)
          rw [field (by omega), absorbs_iff some, same]

theorem mergeLoop_iff {fuel : Nat}
    (loop : ∀ {bs : List Byte} {m m' : Message D}, bs.length < fuel →
      (mergeLoop fuel bs m = .finished m' ↔ Absorbs m m' bs))
    (field : ∀ {i : D.Index} {bs : List Byte} {m m' : Message D}, bs.length < fuel →
      (parseField fuel i bs m = .finished m' ↔
        ∃ token rest, readField i bs = some (token, rest) ∧ Absorbs (m.absorb token) m' rest))
    {bs : List Byte} {m m' : Message D} (short : bs.length < fuel + 1) :
    mergeLoop (fuel + 1) bs m = .finished m' ↔ Absorbs m m' bs := by
  obtain ⟨tag, rest, read⟩ : ∃ tag rest, readTag bs = (tag, rest) := ⟨_, _, rfl⟩
  by_cases zero : tag = 0#32
  · cases bs with
    | nil => simp [mergeLoop, readTag, Absorbs, tokens_nil_iff, eq_comm]
    | cons b bs =>
        have none : nextToken D (b :: bs) = none := by simp only [nextToken, read, if_pos zero]
        rw [absorbs_iff (List.cons_ne_nil b bs), none]
        simp [mergeLoop, read, zero]
  · have shorter := readTag_shorter read zero
    have some : bs ≠ [] := List.ne_nil_of_length_pos (by omega)
    rw [absorbs_iff some]
    rcases D.dispatch_cases tag with ⟨i, declared, wire⟩ | wire | ⟨other, ends⟩
    · simp only [mergeLoop, nextToken, read, if_neg zero, declared, wire]
      exact field (by omega)
    · simp only [mergeLoop, nextToken, read, if_neg zero, wire]
      simp
    · rw [nextToken_of_uninterpreted read zero other ends]
      simp only [mergeLoop, read, if_neg zero]
      cases skipped : skipUnknown tag rest with
      | none => simp
      | some r =>
          obtain ⟨field, behind⟩ := r
          have less := (skipUnknown_spec skipped).shorter
          have later : behind.length < fuel := by omega
          simpa using loop later

/-- The parser absorbs the tokens in their order, from the loop as from a shortcut. -/
theorem merge_iff (fuel : Nat) :
    (∀ {bs : List Byte} {m m' : Message D}, bs.length < fuel →
      (mergeLoop fuel bs m = .finished m' ↔ Absorbs m m' bs)) ∧
    (∀ {i : D.Index} {bs : List Byte} {m m' : Message D}, bs.length < fuel →
      (parseField fuel i bs m = .finished m' ↔
        ∃ token rest, readField i bs = some (token, rest) ∧ Absorbs (m.absorb token) m' rest)) := by
  induction fuel with
  | zero => exact ⟨fun short => by omega, fun short => by omega⟩
  | succ fuel ih =>
      exact ⟨fun short => mergeLoop_iff ih.1 ih.2 short,
        fun short => parseField_iff ih.1 ih.2 short⟩

/-- The fuel is enough for all bytes. -/
theorem merge_ne_outOfFuel (fuel : Nat) :
    (∀ {bs : List Byte} {m : Message D}, bs.length < fuel →
      mergeLoop fuel bs m ≠ .outOfFuel) ∧
    (∀ {i : D.Index} {bs : List Byte} {m : Message D}, bs.length < fuel →
      parseField fuel i bs m ≠ .outOfFuel) := by
  induction fuel with
  | zero => exact ⟨fun short => by omega, fun short => by omega⟩
  | succ fuel ih =>
      obtain ⟨loop, field⟩ := ih
      constructor
      · intro bs m short
        obtain ⟨tag, rest, read⟩ : ∃ tag rest, readTag bs = (tag, rest) := ⟨_, _, rfl⟩
        by_cases zero : tag = 0#32
        · simp only [mergeLoop, read, if_pos zero]
          split <;> simp
        · have shorter := readTag_shorter read zero
          simp only [mergeLoop, read, if_neg zero]
          split
          · exact field (by omega)
          · simp
          · split
            · next skipped =>
                have less := (skipUnknown_spec skipped).shorter
                exact loop (by omega)
            · simp
      · intro i bs m short
        rw [parseField]
        split
        · simp
        · next found =>
            have shorter := readField_shorter found
            split
            · next shortcut =>
                have less := (nextToken_of_expectNext shortcut).2
                exact field (by omega)
            · exact loop (by omega)

/-- `ParseFromArray` succeeds exactly on the sequences of tokens that set all required
fields. -/
theorem parseFromArray_eq_some_iff {bs : List Byte} {m : Message D} :
    parseFromArray D bs = some m ↔
      bs.length ≤ kDefaultTotalBytesLimit ∧ m.isInitialized = true ∧ Absorbs .empty m bs := by
  have merged : ∀ m' : Message D, mergeLoop (bs.length + 1) bs .empty = .finished m' ↔
      Absorbs .empty m' bs := fun m' => (merge_iff _).1 (Nat.lt_succ_self _)
  rw [parseFromArray, ← merged]
  cases mergeLoop (bs.length + 1) bs (.empty : Message D) with
  | finished m' =>
      simp only [Option.ite_none_right_eq_some, Option.some.injEq, MergeResult.finished.injEq]
      constructor
      · rintro ⟨⟨initialized, short⟩, rfl⟩
        exact ⟨short, initialized, rfl⟩
      · rintro ⟨short, initialized, rfl⟩
        exact ⟨⟨initialized, short⟩, rfl⟩
  | _ => simp

/-- The parser always comes to an end, and what it accepts is a sequence of tokens, absorbed
in their order, whichever shortcuts it takes. -/
theorem parseFromArray_iff (D : Descriptor) (bs : List Byte) (m : Message D) :
    mergeLoop (bs.length + 1) bs (.empty : Message D) ≠ .outOfFuel ∧
      (parseFromArray D bs = some m ↔
        ∃ tokens, Tokens D bs tokens ∧ m = tokens.foldl Message.absorb .empty ∧
          m.isInitialized = true ∧ bs.length ≤ kDefaultTotalBytesLimit) := by
  refine ⟨(merge_ne_outOfFuel _).1 (Nat.lt_succ_self _), ?_⟩
  rw [parseFromArray_eq_some_iff]
  constructor
  · rintro ⟨short, initialized, tokens, run, same⟩
    exact ⟨tokens, run, same, initialized, short⟩
  · rintro ⟨tokens, run, same, initialized, short⟩
    exact ⟨short, initialized, tokens, run, same⟩

/-! ## Merging -/

namespace Message

theorem mergeFrom_empty (m : Message D) : m.mergeFrom .empty = m := by
  apply Message.ext
  · funext i
    simp [mergeFrom, empty]
  · simp [mergeFrom, empty]

theorem absorb_mergeFrom (m other : Message D) (token : Token D) :
    (m.mergeFrom other).absorb token = m.mergeFrom (other.absorb token) := by
  cases token with
  | unknown field => simp [absorb, mergeFrom]
  | field i value =>
      apply Message.ext
      · funext j
        by_cases here : j = i
        · subst here
          simp [absorb, set, mergeFrom]
        · simp [absorb, set, mergeFrom, Function.update_of_ne here]
      · rfl

theorem foldl_absorb_mergeFrom (m other : Message D) (tokens : List (Token D)) :
    tokens.foldl absorb (m.mergeFrom other) = m.mergeFrom (tokens.foldl absorb other) := by
  induction tokens generalizing other with
  | nil => rfl
  | cons token tokens ih => rw [List.foldl_cons, absorb_mergeFrom, ih, List.foldl_cons]

theorem foldl_absorb (m : Message D) (tokens : List (Token D)) :
    tokens.foldl absorb m = m.mergeFrom (tokens.foldl absorb .empty) := by
  simpa [mergeFrom_empty] using foldl_absorb_mergeFrom m .empty tokens

theorem isInitialized_mergeFrom {m : Message D} (initialized : m.isInitialized = true)
    (other : Message D) : (m.mergeFrom other).isInitialized = true := by
  simp only [isInitialized, List.all_eq_true, Bool.or_eq_true] at initialized ⊢
  intro i member
  refine (initialized i member).imp_right fun some => ?_
  simp [mergeFrom, some]

end Message

/-- Two messages one behind the other are read as the first with the second merged into it. -/
theorem parseFromArray_append {a b : List Byte} {m m' : Message D}
    (first : parseFromArray D a = some m) (second : parseFromArray D b = some m')
    (short : a.length + b.length ≤ kDefaultTotalBytesLimit) :
    parseFromArray D (a ++ b) = some (m.mergeFrom m') := by
  obtain ⟨_, initialized, tokens, here, rfl⟩ := parseFromArray_eq_some_iff.mp first
  obtain ⟨_, _, tokens', there, rfl⟩ := parseFromArray_eq_some_iff.mp second
  refine parseFromArray_eq_some_iff.mpr ⟨by simpa using short,
    Message.isInitialized_mergeFrom initialized _, _, here.append there, ?_⟩
  rw [List.foldl_append, ← Message.foldl_absorb]

/-- A second room number replaces the first. -/
theorem parseFromArray_append_joinRoom :
    parseFromArray reqJoinRoomMessage ([0x10#8, 0x05#8] ++ [0x10#8, 0x07#8]) =
      some ((Message.empty.setRoomID 5#32).mergeFrom (Message.empty.setRoomID 7#32)) := by
  have first : parseFromArray reqJoinRoomMessage [0x10#8, 0x05#8] =
      some (Message.empty.setRoomID 5#32) := rfl
  have second : parseFromArray reqJoinRoomMessage [0x10#8, 0x07#8] =
      some (Message.empty.setRoomID 7#32) := rfl
  exact parseFromArray_append first second (by decide)

end IocpTest.Protobuf
