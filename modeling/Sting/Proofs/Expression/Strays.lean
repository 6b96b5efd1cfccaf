import Sting.Proofs.Expression.Parentheses

/-!
# Stray closing parentheses

A closing parenthesis that belongs to no opening one is not refused: it releases all that waits. So
it means what it would mean if there were an opening parenthesis at the very beginning. Whether a
closing parenthesis is stray is said by partners, and found by counting what is open before it.
-/

namespace Sting

namespace Lexeme

/-- No opening parenthesis belongs to the closing one at `j`. -/
def IsStray (lexemes : List Lexeme) (j : Nat) : Prop :=
  lexemes[j]? = some .closing ∧ ∀ i, ¬ Partners lexemes i j

/-- How many parentheses close where none is open, when `depth` of them were open before. -/
def strays (depth : Nat) : List Lexeme → Nat
  | [] => 0
  | .opening :: rest => strays (depth + 1) rest
  | .closing :: rest => strays (depth - 1) rest + if depth = 0 then 1 else 0
  | .number _ :: rest | .text _ :: rest | .word _ :: rest | .operator _ :: rest =>
    strays depth rest

/-- The latest opening parenthesis has only balanced lexemes behind it, and so a closing one that
comes next belongs to it. -/
def Opens (lexemes : List Lexeme) : Prop :=
  ∃ before inner, Balanced inner ∧ lexemes = before ++ .opening :: inner

variable {lexemes inner inner' : List Lexeme}

/-! ## What is open before a place -/

/-- Balanced lexemes behind balanced ones are balanced. -/
theorem Balanced.append (h : Balanced inner) (h' : Balanced inner') :
    Balanced (inner ++ inner') := by
  induction h with
  | nil => exact h'
  | cons hlexeme _ ih => exact .cons hlexeme ih
  | enclosed hinner _ _ ih =>
      rw [List.cons_append, List.append_assoc, List.cons_append]
      exact .enclosed hinner ih

/-- What the first lexemes leave open the second ones may close. -/
theorem unmatched_behind (depth : Nat) (first second : List Lexeme) :
    unmatched depth (first ++ second) = unmatched (unmatched depth first) second := by
  induction first generalizing depth with
  | nil => rfl
  | cons lexeme first ih => cases lexeme <;> exact ih _

/-- An opening parenthesis with balanced lexemes behind it is one more that is open. -/
theorem Balanced.unmatched_opening (h : Balanced inner) (before : List Lexeme) :
    unmatched 0 (before ++ .opening :: inner) = unmatched 0 before + 1 := by
  have hinner := h.unmatched_append (unmatched 0 before + 1) []
  rw [List.append_nil] at hinner
  rw [unmatched_behind]
  exact hinner

/-- If something is left open, the latest opening parenthesis without a partner can be named. -/
theorem opens_of_unmatched (h : 0 < unmatched 0 lexemes) : Opens lexemes := by
  induction hn : lexemes.length using Nat.strong_induction_on generalizing lexemes with
  | _ n ih =>
    subst hn
    obtain rfl | ⟨init, last, rfl⟩ := List.eq_nil_or_concat lexemes
    · exact absurd h (Nat.lt_irrefl 0)
    rw [List.concat_eq_append] at h ih ⊢
    have hlength : init.length < (init ++ [last]).length := by simp
    rw [unmatched_behind] at h
    -- What is no parenthesis stays behind the one that was open before it.
    have hother (hlast : last.isParenthesis = false) : Opens (init ++ [last]) := by
      rw [unmatched_cons hlast] at h
      obtain ⟨before, inner, hinner, rfl⟩ := ih _ hlength h rfl
      exact ⟨before, inner ++ [last], hinner.append (.cons hlast .nil), by simp⟩
    cases last with
    | opening => exact ⟨init, [], .nil, rfl⟩
    | closing =>
        -- Two are open before it. It closes the latest, and the one before that stays open.
        have htwo : 1 < unmatched 0 init := Nat.sub_pos_iff_lt.mp h
        obtain ⟨before, inner, hinner, rfl⟩ := ih _ hlength (Nat.zero_lt_of_lt htwo) rfl
        rw [hinner.unmatched_opening] at htwo
        have hbefore : before.length < (before ++ opening :: inner ++ [closing]).length := by
          simp only [List.length_append, List.length_cons]
          omega
        obtain ⟨outer, inner', hinner', rfl⟩ := ih _ hbefore (Nat.lt_of_succ_lt_succ htwo) rfl
        exact ⟨outer, inner' ++ .opening :: (inner ++ [.closing]),
          hinner'.append (.enclosed hinner .nil), by simp⟩
    | number value => exact hother rfl
    | text content => exact hother rfl
    | word name => exact hother rfl
    | operator op => exact hother rfl

/-- The count and the named parenthesis say the same. -/
theorem opens_iff : Opens lexemes ↔ 0 < unmatched 0 lexemes := by
  refine ⟨?_, opens_of_unmatched⟩
  rintro ⟨before, inner, hinner, rfl⟩
  rw [hinner.unmatched_opening]
  exact Nat.succ_pos _

/-- A closing parenthesis has a partner exactly if the lexemes before it leave one open. -/
theorem exists_partners_iff_opens {j : Nat} (hj : lexemes[j]? = some .closing) :
    (∃ i, Partners lexemes i j) ↔ Opens (lexemes.take j) := by
  constructor
  · rintro ⟨i, h⟩
    have hopening : (lexemes.take j)[i]? = some .opening := by
      rw [List.getElem?_take_of_lt h.lt]
      exact h.opening
    obtain ⟨hi, hget⟩ := List.getElem?_eq_some_iff.mp hopening
    refine ⟨(lexemes.take j).take i, (lexemes.take j).drop (i + 1), h.balanced, ?_⟩
    rw [← hget, List.getElem_cons_drop, List.take_append_drop]
  · rintro ⟨before, inner, hinner, htake⟩
    have hlength := congrArg List.length htake
    simp only [List.length_take, List.length_append, List.length_cons] at hlength
    have hlt : before.length < j := by omega
    refine ⟨before.length, ?_, hj, hlt, ?_⟩
    · rw [← List.getElem?_take_of_lt hlt, htake]
      simp
    · rw [htake]
      simpa using hinner

/-- A closing parenthesis is stray when none is open before it. -/
theorem isStray_iff {j : Nat} :
    IsStray lexemes j ↔ lexemes[j]? = some .closing ∧ unmatched 0 (lexemes.take j) = 0 := by
  refine and_congr_right ?_
  intro hj
  rw [← not_exists, exists_partners_iff_opens hj, opens_iff, Nat.pos_iff_ne_zero, not_not]

/-! ## Counting places -/

/-- The places that close when nothing is open, with `depth` parentheses open at the beginning. -/
def strayPlaces (depth : Nat) (lexemes : List Lexeme) : Set Nat :=
  {j | lexemes[j]? = some .closing ∧ unmatched depth (lexemes.take j) = 0}

/-- There are finitely many places. -/
theorem finite_strayPlaces (depth : Nat) (lexemes : List Lexeme) :
    (strayPlaces depth lexemes).Finite := by
  refine (Set.finite_lt_nat lexemes.length).subset ?_
  rintro j ⟨hj, -⟩
  exact (List.getElem?_eq_some_iff.mp hj).1

/-- Only a closing parenthesis adds its own place, and only where nothing is open. -/
theorem ncard_strayPlaces_cons {depth depth' : Nat} {lexeme : Lexeme}
    (hdepth : ∀ lexemes, unmatched depth (lexeme :: lexemes) = unmatched depth' lexemes)
    (rest : List Lexeme) :
    (strayPlaces depth (lexeme :: rest)).ncard =
      (strayPlaces depth' rest).ncard + if lexeme = .closing ∧ depth = 0 then 1 else 0 := by
  have hlater : {j | j + 1 ∈ strayPlaces depth (lexeme :: rest)} = strayPlaces depth' rest := by
    ext j
    simp [strayPlaces, hdepth]
  have hfirst : 0 ∈ strayPlaces depth (lexeme :: rest) ↔ lexeme = .closing ∧ depth = 0 := by
    simp [strayPlaces, unmatched]
  classical
  have hplaces := ncard_places (strayPlaces depth (lexeme :: rest))
    (hlater ▸ finite_strayPlaces depth' rest)
  rw [hlater] at hplaces
  simpa only [hfirst] using hplaces

/-- The count with a depth is that of the places. -/
theorem strays_eq_ncard (depth : Nat) (lexemes : List Lexeme) :
    strays depth lexemes = (strayPlaces depth lexemes).ncard := by
  induction lexemes generalizing depth with
  | nil => simp [strays, strayPlaces]
  | cons lexeme rest ih =>
      have hother (hlexeme : lexeme ≠ .closing) {depth' : Nat}
          (hdepth : ∀ lexemes, unmatched depth (lexeme :: lexemes) = unmatched depth' lexemes) :
          strays depth' rest = (strayPlaces depth (lexeme :: rest)).ncard := by
        rw [ncard_strayPlaces_cons hdepth, if_neg fun h => hlexeme h.1, ih, Nat.add_zero]
      cases lexeme with
      | closing =>
          have hdepth (lexemes : List Lexeme) :
              unmatched depth (.closing :: lexemes) = unmatched (depth - 1) lexemes := rfl
          rw [strays, ih, ncard_strayPlaces_cons hdepth]
          simp
      | opening => exact hother nofun fun _ => rfl
      | number value => exact hother nofun fun _ => rfl
      | text content => exact hother nofun fun _ => rfl
      | word name => exact hother nofun fun _ => rfl
      | operator op => exact hother nofun fun _ => rfl

end Lexeme

namespace Instruction

open Lexeme (strays)

/-- A closing parenthesis at the end of what is pending takes one of the openings added below. -/
theorem tail_dropWhile_append (pending : List Pending) (lexemes : List Lexeme) :
    (pending.dropWhile Pending.isOperator ++
        List.replicate (strays (pending.count .opening) (.closing :: lexemes))
          Pending.opening).tail =
      (pending.dropWhile Pending.isOperator).tail ++
        List.replicate
          (strays ((pending.dropWhile Pending.isOperator).tail.count .opening) lexemes)
          Pending.opening := by
  rw [count_opening_tail_dropWhile, strays]
  have hcount := count_opening_dropWhile (p := Pending.isOperator) rfl pending
  cases hdrop : pending.dropWhile Pending.isOperator with
  | nil =>
      have hnone : pending.count .opening = 0 := by rw [← hcount, hdrop, List.count_nil]
      rw [hnone, if_pos rfl]
      rfl
  | cons entry rest =>
      have hhead := List.head?_dropWhile_not Pending.isOperator pending
      rw [hdrop] at hcount hhead
      cases entry with
      | operator op => simp [Pending.isOperator] at hhead
      | opening =>
          have hsome : pending.count .opening ≠ 0 := by simp [← hcount]
          rw [if_neg hsome]
          rfl

/-- Opening parentheses below all that is pending change nothing if there are as many of them as
stray closing ones are still to come. -/
theorem convert_above_openings (due : Bool) (pending : List Pending) (lexemes : List Lexeme) :
    convert due
        (pending ++ List.replicate (strays (pending.count .opening) lexemes) .opening) lexemes =
      convert due pending lexemes := by
  induction lexemes generalizing due pending with
  | nil => rw [strays, List.replicate_zero, List.append_nil]
  | cons lexeme rest ih =>
      have hkept {p : Pending → Bool} (hp : p .opening = false) (n : Nat) :
          ∀ entry ∈ (List.replicate n Pending.opening).head?, p entry = false := by
        intro entry hentry
        rw [List.eq_of_mem_replicate (List.mem_of_mem_head? hentry), hp]
      cases lexeme with
      | number value => exact congrArg (.number value :: ·) (ih false pending)
      | text content => exact congrArg (.text content :: ·) (ih false pending)
      | word name => exact congrArg (.word name :: ·) (ih false pending)
      | opening =>
          have hrest := ih true (.opening :: pending)
          rwa [List.count_cons_self] at hrest
      | closing =>
          obtain ⟨htake, hdrop⟩ := Text.span_append pending (hkept (p := Pending.isOperator) rfl
            (strays (pending.count .opening) (.closing :: rest)))
          rw [convert, convert, htake, hdrop, tail_dropWhile_append, ih]
      | operator op =>
          have hp := isReleasedBy_opening (placed due op)
          have hne : Pending.operator (placed due op) ≠ .opening := by simp
          obtain ⟨htake, hdrop⟩ := Text.span_append pending
            (hkept hp (strays (pending.count .opening) rest))
          have hrest := ih true
            (.operator (placed due op) :: pending.dropWhile (isReleasedBy (placed due op)))
          rw [List.count_cons_of_ne hne, count_opening_dropWhile hp, List.cons_append] at hrest
          rw [convert, convert, strays, htake, hdrop, hrest]

/-- Opening parentheses just wait. -/
theorem convert_openings (n : Nat) (pending : List Pending) (lexemes : List Lexeme) :
    convert true pending (List.replicate n .opening ++ lexemes) =
      convert true (List.replicate n .opening ++ pending) lexemes := by
  induction n generalizing pending with
  | zero => rfl
  | succ n ih =>
      rw [List.replicate_succ, List.cons_append, convert, ih, List.replicate_succ',
        List.append_assoc]
      rfl

/-- The code of any lexemes is the code of the same lexemes with an opening parenthesis at the very
beginning for each closing one that is stray. -/
theorem ofLexemes_behind_openings (lexemes : List Lexeme) :
    ofLexemes (List.replicate {j | Lexeme.IsStray lexemes j}.ncard .opening ++ lexemes) =
      ofLexemes lexemes := by
  have hstrays : {j | Lexeme.IsStray lexemes j}.ncard = strays 0 lexemes := by
    rw [Lexeme.strays_eq_ncard]
    congr 1
    ext j
    exact Lexeme.isStray_iff
  have habove := convert_above_openings true [] lexemes
  rw [List.nil_append, List.count_nil] at habove
  rw [hstrays, ofLexemes, convert_openings, List.append_nil, habove, ofLexemes]

end Instruction

end Sting
