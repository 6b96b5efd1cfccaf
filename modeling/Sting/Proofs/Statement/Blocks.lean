import Sting.Proofs.Statement.Shape

/-!
# Blocks that are read

What is known of the blocks that the reader has open. Each step keeps it, so a whole run does, and
the program that is read at the end consists of statements that can be read again.
-/

namespace Sting

open Token

namespace Block

/-- The block is an arm of a conditional. -/
def isBranch : Block → Bool
  | .branch .. => true
  | .loop .. => false

/-- What is known of an open block. -/
def Sound : Block → Prop
  | .branch earlier condition body =>
    (∀ arm ∈ earlier, Statement.IsArm arm) ∧ (∀ c ∈ condition, c.Guarding) ∧
      (condition = none → earlier ≠ []) ∧ ∀ s ∈ body, s.Readable ∧ s.isConditional = false
  | .loop condition body => condition.Guarding ∧ ∀ s ∈ body, s.Readable

/-- What is known of open blocks, innermost first: no arm stands directly inside another. -/
def Nested : List Block → Prop
  | [] => True
  | b :: outer =>
    b.Sound ∧ (b.isBranch = true → outer.head?.any isBranch = false) ∧ Nested outer

end Block

namespace Reader

/-- The innermost open block is an arm of a conditional. -/
def inBranch (r : Reader) : Bool :=
  r.blocks.head?.any Block.isBranch

/-- What is known of the reader at any time. -/
structure Sound (r : Reader) : Prop where
  program : ∀ s ∈ r.program, s.Readable
  blocks : Block.Nested r.blocks

/-- Nothing was read, so nothing is wrong. -/
theorem sound_start : start.Sound :=
  ⟨nofun, trivial⟩

/-- A readable statement may be added, a conditional only outside of arms. -/
theorem Sound.add {r : Reader} {s : Statement} (h : r.Sound) (hs : s.Readable)
    (hplace : s.isConditional = true → r.inBranch = false) : (r.add s).Sound := by
  obtain ⟨program, blocks, skipped⟩ := r
  obtain ⟨hprogram, hblocks⟩ := h
  cases blocks with
  | nil => exact ⟨List.forall_mem_cons.mpr ⟨hs, hprogram⟩, trivial⟩
  | cons b outer =>
      cases b with
      | branch earlier condition body =>
          obtain ⟨⟨harms, hguard, hfirst, hbody⟩, hinner, houter⟩ := hblocks
          have hplain : s.isConditional = false := by
            cases hc : s.isConditional with
            | false => rfl
            | true => cases hplace hc
          refine ⟨hprogram, ⟨harms, hguard, hfirst, ?_⟩, hinner, houter⟩
          exact List.forall_mem_cons.mpr ⟨⟨hs, hplain⟩, hbody⟩
      | loop condition body =>
          obtain ⟨⟨hguard, hbody⟩, -, houter⟩ := hblocks
          exact ⟨hprogram, ⟨hguard, List.forall_mem_cons.mpr ⟨hs, hbody⟩⟩, nofun, houter⟩

/-- A sound block may be opened, an arm only outside of arms. -/
theorem Sound.enter {r : Reader} {b : Block} (h : r.Sound) (hb : b.Sound)
    (hplace : b.isBranch = true → r.inBranch = false) : (r.enter b).Sound :=
  ⟨h.program, hb, hplace, h.blocks⟩

/-- The arms that are complete and the one that is open make up a conditional. -/
theorem readable_conditional {earlier : List (Branch Statement)} {condition : Option Expression}
    {body : List Statement} (h : (Block.branch earlier condition body).Sound) :
    (Statement.conditional (⟨condition, body.reverse⟩ :: earlier).reverse).Readable := by
  obtain ⟨harms, hguard, hfirst, hbody⟩ := h
  have hlast : Statement.ReadableArms [⟨condition, body.reverse⟩] := by
    refine ⟨hguard, fun _ => rfl, Statement.readableBody_iff.mpr ?_, ?_, trivial⟩
    · intro s hs
      exact (hbody s (List.mem_reverse.mp hs)).1
    · intro s hs
      exact (hbody s (List.mem_reverse.mp hs)).2
  have harms' : ∀ arm ∈ earlier.reverse, Statement.IsArm arm :=
    fun arm harm => harms arm (List.mem_reverse.mp harm)
  rw [List.reverse_cons]
  refine ⟨?_, Statement.readableArms_append harms' hlast⟩
  cases he : earlier.reverse with
  | nil =>
      cases condition with
      | none => exact absurd (List.reverse_eq_nil_iff.mp he) (hfirst rfl)
      | some c => exact ⟨c, body.reverse, [], rfl⟩
  | cons arm rest =>
      obtain ⟨⟨c, hc, -⟩, -, -⟩ := harms' arm (he ▸ List.mem_cons_self)
      obtain ⟨condition', body'⟩ := arm
      dsimp only at hc
      subst hc
      exact ⟨c, body', rest ++ [_], rfl⟩

/-- A block that is closed becomes a readable statement. -/
theorem Sound.close {r : Reader} (h : r.Sound) : r.close.Sound := by
  obtain ⟨program, blocks, skipped⟩ := r
  obtain ⟨hprogram, hblocks⟩ := h
  cases blocks with
  | nil => exact ⟨hprogram, hblocks⟩
  | cons b outer =>
      obtain ⟨hb, hinner, houter⟩ := hblocks
      have houter' : (⟨program, outer, skipped⟩ : Reader).Sound := ⟨hprogram, houter⟩
      cases b with
      | branch earlier condition body =>
          exact houter'.add (readable_conditional hb) fun _ => hinner rfl
      | loop condition body =>
          obtain ⟨hguard, hbody⟩ := hb
          refine houter'.add ⟨hguard, Statement.readableBody_iff.mpr ?_⟩ nofun
          intro s hs
          exact hbody s (List.mem_reverse.mp hs)

/-- Passing over a token adds nothing and closes a loop at most. -/
theorem Sound.skip {r : Reader} (h : r.Sound) (t : Token) : (r.skip t).Sound := by
  have hpassed : ({ r with skipped := t :: r.skipped } : Reader).Sound := ⟨h.program, h.blocks⟩
  unfold Reader.skip
  split
  · exact hpassed.close
  · exact hpassed

/-- A clause adds or opens what is readable and leaves a suffix of the tokens. -/
theorem Sound.takeClause {r r' : Reader} {t : Token} {tokens rest : List Token} (h : r.Sound)
    (hgenuine : ∀ u ∈ t :: tokens, u.Genuine) (hplace : t.text = "if" → r.inBranch = false)
    (hr : r.takeClause t tokens = .ok (r', rest)) : r'.Sound ∧ rest <:+ tokens := by
  obtain ⟨⟨clause, tail⟩, hread, hr⟩ := Clause.exists_of_bind hr
  obtain ⟨hclause, hsuffix⟩ := Clause.sound_of_read hgenuine hread
  cases clause with
  | simple s =>
      cases hr
      obtain ⟨hs, hplain⟩ := hclause
      refine ⟨h.add hs ?_, hsuffix⟩
      rw [hplain]
      exact nofun
  | conditional condition =>
      cases hr
      obtain ⟨hguard, hif⟩ := hclause
      refine ⟨h.enter ⟨nofun, ?_, nofun, nofun⟩ fun _ => hplace hif, hsuffix⟩
      rintro c ⟨rfl⟩
      exact hguard
  | loop condition =>
      cases hr
      exact ⟨h.enter ⟨hclause, nofun⟩ nofun, hsuffix⟩
  | stray =>
      cases hr
      exact ⟨h.skip t, hsuffix⟩

/-- What follows the body of an arm closes or opens what is readable and leaves a suffix of the
tokens. -/
theorem Sound.nextBranch {r r' : Reader} {tokens rest : List Token} (h : r.Sound)
    (hgenuine : ∀ u ∈ tokens, u.Genuine) (hr : r.nextBranch tokens = .ok (r', rest)) :
    r'.Sound ∧ rest <:+ tokens := by
  unfold Reader.nextBranch at hr
  split at hr
  · rename_i earlier condition body outer t tail hblocks
    have htail : ∀ u ∈ tail, u.Genuine := fun u hu => hgenuine u (List.mem_cons_of_mem t hu)
    have hnested := h.blocks
    rw [hblocks] at hnested
    obtain ⟨⟨harms, hguard, -, hbody⟩, hinner, houter⟩ := hnested
    have harm : Statement.IsArm ⟨some condition, body.reverse⟩ :=
      ⟨⟨condition, rfl, hguard condition rfl⟩, fun s hs => (hbody s (List.mem_reverse.mp hs)).1,
        fun s hs => (hbody s (List.mem_reverse.mp hs)).2⟩
    have harms' := List.forall_mem_cons.mpr ⟨harm, harms⟩
    dsimp only at hr
    split at hr
    · obtain ⟨⟨c, rest'⟩, hc, hr⟩ := Clause.exists_of_bind hr
      cases hr
      obtain ⟨hguard', hsuffix⟩ := Clause.guarding_of_takeCondition htail hc
      refine ⟨⟨h.program, ⟨harms', ?_, nofun, nofun⟩, hinner, houter⟩,
        hsuffix.trans (List.suffix_cons t tail)⟩
      rintro c' ⟨rfl⟩
      exact hguard'
    · split at hr
      · obtain ⟨rest', hcolon, hr⟩ := Clause.exists_of_bind hr
        cases hr
        obtain ⟨colon, -, rfl⟩ := Clause.suffix_of_expect hcolon
        refine ⟨⟨h.program, ⟨harms', nofun, fun _ => List.cons_ne_nil _ _, nofun⟩, hinner, houter⟩,
          List.suffix_append [t, colon] rest⟩
      · cases hr
        exact ⟨h.close, List.suffix_rfl⟩
  · cases hr
    exact ⟨h.close, List.suffix_rfl⟩

/-- A step keeps what is known of the reader, and adds nothing to read. -/
theorem Sound.step {r r' : Reader} {t : Token} {tokens rest : List Token} (h : r.Sound)
    (hgenuine : ∀ u ∈ t :: tokens, u.Genuine) (hr : r.step t tokens = .ok (r', rest)) :
    r'.Sound ∧ rest <:+ t :: tokens := by
  have hclause (hplace : t.text = "if" → r.inBranch = false)
      (hr : r.takeClause t tokens = .ok (r', rest)) : r'.Sound ∧ rest <:+ t :: tokens := by
    obtain ⟨hsound, hsuffix⟩ := h.takeClause hgenuine hplace hr
    exact ⟨hsound, hsuffix.trans (List.suffix_cons t tokens)⟩
  unfold Reader.step at hr
  split at hr
  · rename_i hblocks
    split at hr
    · cases hr
      exact ⟨h, List.suffix_cons t _⟩
    · refine hclause ?_ hr
      intro _
      rw [inBranch, hblocks]
      rfl
  · split at hr
    · have hsuffix := Clause.suffix_skipBar (t :: tokens)
      obtain ⟨hsound, hrest⟩ := h.nextBranch (fun u hu => hgenuine u (hsuffix.subset hu)) hr
      exact ⟨hsound, hrest.trans hsuffix⟩
    · rename_i hends
      refine hclause ?_ hr
      intro hif
      rw [hif] at hends
      exact absurd (by decide) hends
  · rename_i hblocks
    have houtside : r.inBranch = false := by
      rw [inBranch, hblocks]
      rfl
    split at hr
    · split at hr
      · cases hr
        exact ⟨h.close, List.suffix_cons t []⟩
      · rename_i u tail
        split at hr
        · cases hr
          exact ⟨h.close, List.suffix_cons t _⟩
        · have htail : ∀ v ∈ u :: tail, v.Genuine :=
            fun v hv => hgenuine v (List.mem_cons_of_mem t hv)
          obtain ⟨hsound, hsuffix⟩ := h.takeClause htail (fun _ => houtside) hr
          exact ⟨hsound, hsuffix.trans (List.suffix_append [t, u] tail)⟩
    · exact hclause (fun _ => houtside) hr

/-- All open blocks may be closed, one after the other. -/
theorem Sound.closeAll {r : Reader} (h : r.Sound) : r.closeAll.Sound := by
  have hfold (blocks : List Block) {r : Reader} (h : r.Sound) :
      (blocks.foldl (fun r _ => r.close) r).Sound := by
    induction blocks generalizing r with
    | nil => exact h
    | cons b blocks ih => exact ih h.close
  exact hfold r.blocks h

/-- A whole run keeps what is known of the reader. -/
theorem Sound.run {r : Reader} {tokens : List Token} (h : r.Sound)
    (hgenuine : ∀ u ∈ tokens, u.Genuine) : (r.run tokens).1.Sound := by
  fun_induction Reader.run r tokens with
  | case1 r => exact h.closeAll
  | case2 r t rest m hstep => exact h
  | case3 r t rest r' rest' hstep hsize ih =>
      obtain ⟨hsound, hsuffix⟩ := h.step hgenuine hstep
      exact ih hsound fun u hu => hgenuine u (hsuffix.subset hu)

end Reader

/-- A program that was read from a source consists of statements that can be read again. -/
theorem Statement.readable_of_read {source : String} {program : List Statement}
    (h : Statement.read (Token.scan source) = .ok program) : ReadableBody program := by
  have hgenuine : ∀ t ∈ Token.scan source, t.Genuine := fun t ht => genuine_of_mem_scan ht
  obtain ⟨-, rfl⟩ := read_eq_ok_iff.mp h
  rw [readableBody_iff]
  intro s hs
  exact (Reader.sound_start.run hgenuine).program s (List.mem_reverse.mp hs)

end Sting
