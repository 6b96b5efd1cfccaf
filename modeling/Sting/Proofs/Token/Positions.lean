import Mathlib.Data.List.Induction
import Mathlib.Tactic.Common
import Sting.Token.Piece

/-!
# Places of tokens

The scanner counts lines and columns as it goes from piece to piece. Here the place of a byte is
defined without the scanner, from the characters before it. The two agree at every token, and the
text of a token is what the source has at its place. Tokens stand in the order of the source, and
none reaches into the next.
-/

namespace Sting

open Text

namespace Text

/-- The bytes of UTF-8 that a text takes. -/
def byteSize (text : List Char) : Nat :=
  (String.ofList text).utf8ByteSize

@[simp] theorem byteSize_nil : byteSize [] = 0 := rfl

/-- The first character takes its own bytes. -/
@[simp] theorem byteSize_cons (c : Char) (text : List Char) :
    byteSize (c :: text) = c.utf8Size + byteSize text := by
  rw [byteSize, String.ofList_cons, String.utf8ByteSize_append, String.utf8ByteSize_singleton,
    byteSize]

/-- Bytes of two texts add up. -/
@[simp] theorem byteSize_append (text text' : List Char) :
    byteSize (text ++ text') = byteSize text + byteSize text' := by
  rw [byteSize, String.ofList_append, String.utf8ByteSize_append, byteSize, byteSize]

/-- The bytes of a text are those of its characters. -/
@[simp] theorem byteSize_toList (text : String) : byteSize text.toList = text.utf8ByteSize := by
  rw [byteSize, String.ofList_toList]

/-- The characters of a text that begin before a byte of it. -/
def charsBefore : List Char → Nat → List Char
  | _, 0 => []
  | [], _ => []
  | c :: rest, offset + 1 => c :: charsBefore rest (offset + 1 - c.utf8Size)

/-- Counting the bytes of the beginning of a text leads to its end. -/
theorem charsBefore_append (before after : List Char) :
    charsBefore (before ++ after) (byteSize before) = before := by
  induction before with
  | nil => cases after <;> rfl
  | cons c before ih =>
      have hc := Char.utf8Size_pos c
      obtain ⟨n, hn⟩ : ∃ n, byteSize (c :: before) = n + 1 :=
        Nat.exists_eq_add_one.mpr (by rw [byteSize_cons]; omega)
      have hrest : n + 1 - c.utf8Size = byteSize before := by
        rw [← hn, byteSize_cons]
        omega
      rw [hn, List.cons_append, charsBefore, hrest, ih]

end Text

namespace Position

/-! ## The place of a byte -/

/-- The place of a byte in a source: the newlines before it, and the characters behind the last of
them. -/
def ofOffset (source : String) (offset : Nat) : Position where
  line := (charsBefore source.toList offset).count '\n'
  column := ((charsBefore source.toList offset).reverse.takeWhile (· != '\n')).length
  offset := offset

/-- The offset grows by the bytes that are passed. -/
theorem offset_after (p : Position) (text : List Char) :
    (p.after text).offset = p.offset + byteSize text := by
  induction text generalizing p with
  | nil => rfl
  | cons c text ih =>
      have hnext : (p.next c).offset = p.offset + c.utf8Size := by
        unfold next
        split <;> rfl
      rw [after_cons, ih, hnext, byteSize_cons, Nat.add_assoc]

/-- What is counted from the start of a text. The induction goes from its end, as columns count from
the last newline. -/
theorem after_start (text : List Char) :
    start.after text =
      ⟨text.count '\n', (text.reverse.takeWhile (· != '\n')).length, byteSize text⟩ := by
  induction text using List.reverseRecOn with
  | nil => rfl
  | append_singleton text c ih =>
      rw [after_append, ih, after_cons, after_nil, next]
      split
      · rename_i hc
        subst hc
        simp
      · rename_i hc
        simp [hc]

/-- From the start the offset is the number of bytes. -/
theorem offset_after_start (text : List Char) : (start.after text).offset = byteSize text := by
  rw [after_start]

/-- The place behind a beginning of the source is the one that its offset has in the source. -/
theorem after_start_eq_ofOffset {source : String} {before rest : List Char}
    (h : source.toList = before ++ rest) :
    start.after before = ofOffset source (byteSize before) := by
  rw [after_start, ofOffset, h, charsBefore_append]

-- The second line has one character of two bytes and a blank before the offset.
example : ofOffset "a\nμ b" 5 = ⟨1, 2, 5⟩ := by decide +kernel

end Position

namespace Piece

/-! ## The pieces before a token -/

/-- Pieces that stand behind others begin where these end. -/
theorem tokens_append (p : Position) (pieces pieces' : List Piece) :
    tokens p (pieces ++ pieces') =
      tokens p pieces ++ tokens (p.after (pieces.flatMap text)) pieces' := by
  induction pieces generalizing p with
  | nil => rfl
  | cons piece pieces ih =>
      rw [List.flatMap_cons, Position.after_append]
      cases piece with
      | token kind text => exact congrArg (_ :: ·) (ih _)
      | comment text => exact ih _
      | stray c => exact ih _

/-- A token is one of the pieces, and its place is behind the ones before it. -/
theorem exists_of_mem_tokens {p : Position} {pieces : List Piece} {t : Token}
    (h : t ∈ tokens p pieces) :
    ∃ before after, pieces = before ++ .token t.kind t.text.toList :: after ∧
      t.position = p.after (before.flatMap text) := by
  induction pieces generalizing p with
  | nil => cases h
  | cons piece pieces ih =>
      have hrest (h : t ∈ tokens (p.after piece.text) pieces) :
          ∃ before after, piece :: pieces = before ++ .token t.kind t.text.toList :: after ∧
            t.position = p.after (before.flatMap text) := by
        obtain ⟨before, after, rfl, hposition⟩ := ih h
        refine ⟨piece :: before, after, rfl, ?_⟩
        rw [hposition, List.flatMap_cons, Position.after_append]
      cases piece with
      | token kind text =>
          rcases List.mem_cons.mp h with rfl | h
          · exact ⟨[], pieces, by simp, rfl⟩
          · exact hrest h
      | comment text => exact hrest h
      | stray c => exact hrest h

/-- No token begins before the first piece. -/
theorem offset_le_of_mem_tokens {p : Position} {pieces : List Piece} {t : Token}
    (h : t ∈ tokens p pieces) : p.offset ≤ t.position.offset := by
  obtain ⟨before, -, -, hposition⟩ := exists_of_mem_tokens h
  rw [hposition, Position.offset_after]
  exact Nat.le_add_right _ _

/-- Every token ends before the next one begins. -/
theorem pairwise_tokens (p : Position) (pieces : List Piece) :
    (tokens p pieces).Pairwise fun t u =>
      t.position.offset + t.text.utf8ByteSize ≤ u.position.offset := by
  induction pieces generalizing p with
  | nil => exact .nil
  | cons piece pieces ih =>
      cases piece with
      | token kind text =>
          refine .cons ?_ (ih _)
          intro u hu
          have hle := offset_le_of_mem_tokens hu
          rwa [Position.offset_after] at hle
      | comment text => exact ih _
      | stray c => exact ih _

/-- Every piece has a character. -/
theorem text_ne_nil_of_mem_scan {source : List Char} :
    ∀ piece ∈ scan source, piece.text ≠ [] := by
  fun_induction scan source with
  | case1 => simp
  | case2 c rest ih => exact List.forall_mem_cons.mpr ⟨text_cut_ne_nil c rest, ih⟩

end Piece

namespace Token

/-! ## The place of a token -/

/-- A token stands in the source where its place says. -/
structure PlacedIn (source : String) (t : Token) : Prop where
  text_ne_empty : t.text ≠ ""
  isValid_begin : String.Pos.Raw.IsValid source ⟨t.position.offset⟩
  isValid_end : String.Pos.Raw.IsValid source ⟨t.position.offset + t.text.utf8ByteSize⟩
  bytes : source.toByteArray.extract t.position.offset
    (t.position.offset + t.text.utf8ByteSize) = t.text.toByteArray
  position_eq : t.position = .ofOffset source t.position.offset

/-- The source around a token. -/
theorem exists_split_of_mem_scan {source : String} {t : Token} (h : t ∈ Token.scan source) :
    ∃ before after : String, source = before ++ t.text ++ after ∧
      t.position = Position.start.after before.toList := by
  obtain ⟨before, after, hpieces, hposition⟩ := Piece.exists_of_mem_tokens h
  refine ⟨.ofList (before.flatMap Piece.text), .ofList (after.flatMap Piece.text), ?_, ?_⟩
  · have hsource := Piece.flatMap_text_scan source.toList
    rw [hpieces, List.flatMap_append, List.flatMap_cons] at hsource
    apply String.toList_injective
    simp only [String.toList_append, String.toList_ofList, List.append_assoc]
    exact hsource.symm
  · rw [hposition, String.toList_ofList]

/-- Every token has a character. -/
theorem text_ne_empty_of_mem_scan {source : String} {t : Token} (h : t ∈ Token.scan source) :
    t.text ≠ "" := by
  obtain ⟨before, after, hpieces, -⟩ := Piece.exists_of_mem_tokens h
  have hmem : Piece.token t.kind t.text.toList ∈ Piece.scan source.toList := by simp [hpieces]
  intro hempty
  refine Piece.text_ne_nil_of_mem_scan _ hmem ?_
  rw [hempty]
  rfl

/-- Every token stands in the source where its place says, and before all tokens behind it. -/
theorem placed_of_scan (source : String) :
    (∀ t ∈ Token.scan source, t.PlacedIn source) ∧
      (Token.scan source).Pairwise fun t u =>
        t.position.offset + t.text.utf8ByteSize ≤ u.position.offset := by
  refine ⟨?_, Piece.pairwise_tokens _ _⟩
  intro t ht
  obtain ⟨before, after, hsource, hposition⟩ := exists_split_of_mem_scan ht
  have hoffset : t.position.offset = before.utf8ByteSize := by
    rw [hposition, Position.offset_after_start, byteSize_toList]
  have hplace : t.position = .ofOffset source t.position.offset := by
    have htoList : source.toList = before.toList ++ (t.text ++ after).toList := by
      rw [hsource, String.append_assoc, String.toList_append]
    rw [hoffset, hposition, Position.after_start_eq_ofOffset htoList, byteSize_toList]
  refine ⟨text_ne_empty_of_mem_scan ht, ?_, ?_, ?_, hplace⟩
  · rw [String.Pos.Raw.isValid_iff_exists_append, hoffset]
    exact ⟨before, t.text ++ after, by rw [hsource, String.append_assoc], rfl⟩
  · rw [String.Pos.Raw.isValid_iff_exists_append, hoffset, ← String.utf8ByteSize_append]
    exact ⟨before ++ t.text, after, hsource, rfl⟩
  · have hend : before.utf8ByteSize + t.text.utf8ByteSize =
        (before ++ t.text).toByteArray.size := by
      rw [String.size_toByteArray, String.utf8ByteSize_append]
    rw [hoffset, hend, hsource, String.toByteArray_append, ByteArray.extract_append_size_left,
      String.toByteArray_append]
    exact ByteArray.extract_append_eq_right String.size_toByteArray.symm ByteArray.size_append

end Token

end Sting
