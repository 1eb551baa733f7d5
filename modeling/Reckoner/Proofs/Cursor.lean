/-
This file shows that the bytes a cursor counts are those of whole characters, in every text. The
tokens that it reads by bytes are therefore those that are read by characters.
-/

import Mathlib.Data.String.Basic
import Reckoner.Proofs.Seam
import Reckoner.Token.Cursor

namespace Reckoner.Cursor

open String (ofList utf8Len)

/-- The cursor stands behind the first characters of a text. -/
def between (before rest : List Char) : Cursor := ⟨ofList (before ++ rest), utf8Len before⟩

theorem start_eq_between (source : String) : start source = between [] source.toList := by
  rw [start, between, List.nil_append, String.ofList_toList, String.utf8Len_nil]

section Slices

variable (before middle after : List Char)

theorem isValid_utf8Len : String.Pos.Raw.IsValid (ofList (before ++ after)) ⟨utf8Len before⟩ := by
  rw [String.Pos.Raw.isValid_iff_exists_append]
  exact ⟨ofList before, ofList after, String.ofList_append, (String.rawEndPos_ofList before).symm⟩

/-- Between two places that stand behind whole characters lie the characters between them. -/
theorem slice?_eq : slice? (ofList (before ++ middle ++ after)) (utf8Len before)
    (utf8Len (before ++ middle)) = some (ofList middle) := by
  have size (characters : List Char) : utf8Len characters = characters.utf8Encode.size := by
    rw [← String.utf8ByteSize_ofList, ← String.size_toByteArray, String.toByteArray_ofList]
  have first : String.Pos.Raw.IsValid (ofList (before ++ middle ++ after)) ⟨utf8Len before⟩ := by
    rw [List.append_assoc]
    exact isValid_utf8Len before (middle ++ after)
  have last := isValid_utf8Len (before ++ middle) after
  have ordered : utf8Len before ≤ utf8Len (before ++ middle) := by simp
  rw [slice?, dif_pos ⟨ordered, first, last⟩, Option.some.injEq, ← String.toByteArray_inj,
    String.toByteArray_extract]
  show (ofList (before ++ middle ++ after)).toByteArray.extract (utf8Len before + 0)
    (utf8Len (before ++ middle)) = (ofList middle).toByteArray
  rw [String.utf8Len_append, String.toByteArray_ofList, String.toByteArray_ofList,
    List.append_assoc, List.utf8Encode_append, List.utf8Encode_append,
    ByteArray.extract_append_size_add' (size before),
    ByteArray.extract_append_eq_left (size middle)]

theorem rest?_between (rest : List Char) : (between before rest).rest? = some (ofList rest) := by
  have slice := slice?_eq before rest []
  rw [List.append_nil] at slice
  rw [rest?, between, String.utf8ByteSize_ofList, slice]

end Slices

variable {σ : Type} {accept? : σ → Char → Option σ} {state final : σ} (before : List Char)

theorem peek?_between (rest : List Char) : (between before rest).peek? = some rest.head? := by
  rw [peek?, rest?_between, Option.map_some, String.toList_ofList]

theorem advance?_between (first : Char) (rest : List Char) :
    (between before (first :: rest)).advance? =
      some (some first, between (before ++ [first]) rest) := by
  rw [advance?, peek?_between]
  simp [between]

theorem bytesLeft_between (rest : List Char) : (between before rest).bytesLeft = utf8Len rest := by
  rw [bytesLeft, between, String.utf8ByteSize_ofList, String.utf8Len_append,
    Nat.add_sub_cancel_left]

/-- A cursor that goes over some characters has fewer bytes left. -/
theorem bytesLeft_lt {passed : List Char} (some : passed ≠ []) (rest : List Char) :
    (between (before ++ passed) rest).bytesLeft < (between before (passed ++ rest)).bytesLeft := by
  have positive : utf8Len passed ≠ 0 := mt String.utf8Len_eq_zero.mp some
  rw [bytesLeft_between, bytesLeft_between, String.utf8Len_append]
  omega

theorem bytesLeft_cons_lt (first : Char) (rest : List Char) :
    (between (before ++ [first]) rest).bytesLeft < (between before (first :: rest)).bytesLeft :=
  bytesLeft_lt before (List.cons_ne_nil first []) rest

/-- The cursor moves over the characters that are accepted one after the other, up to one that is
not. -/
theorem skip?_between {passed remaining : List Char}
    (accepted : passed.foldlM accept? state = some final)
    (stops : ∀ character ∈ remaining.head?, accept? final character = none) :
    (between before (passed ++ remaining)).skip? accept? state =
      some (between (before ++ passed) remaining) := by
  induction passed generalizing state before with
  | nil =>
      obtain rfl : state = final := by simpa using accepted
      rw [skip?, List.nil_append, List.append_nil, peek?_between]
      cases remaining with
      | nil => rfl
      | cons first others => simp [stops first rfl]
  | cons first others ih =>
      obtain ⟨following, accepts, accepted⟩ := Option.bind_eq_some_iff.mp accepted
      have fewer := bytesLeft_cons_lt before first (others ++ remaining)
      rw [skip?, List.cons_append, peek?_between, advance?_between]
      simp [accepts, fewer, ih _ accepted]

theorem take?_between {passed remaining : List Char}
    (accepted : passed.foldlM accept? state = some final)
    (stops : ∀ character ∈ remaining.head?, accept? final character = none) :
    (between before (passed ++ remaining)).take? accept? state =
      some (ofList passed, between (before ++ passed) remaining) := by
  have slice := slice?_eq before passed remaining
  rw [List.append_assoc] at slice
  rw [take?, skip?_between before accepted stops, Option.bind_eq_bind, Option.bind_some]
  simp only [between, slice]
  rfl

theorem foldlM_eq_self {characters : List Char}
    (kept : ∀ character ∈ characters, accept? state character = some state) :
    characters.foldlM accept? state = some state := by
  induction characters with
  | nil => rfl
  | cons first others ih =>
      obtain ⟨here, after⟩ := List.forall_mem_cons.mp kept
      rw [List.foldlM_cons, here, Option.bind_eq_bind, Option.bind_some, ih after]

/-- The digits of a number and its point are accepted, and what follows them is not. -/
theorem exists_acceptDigit? (text : List Char) :
    ∃ pointed, (Digits.span text).1.text.foldlM acceptDigit? false = some pointed ∧
      ∀ character ∈ (Digits.span text).2.head?, acceptDigit? pointed character = none := by
  have accepted (pointed : Bool) (part : List Char) :
      (part.takeWhile Char.isDigit).foldlM acceptDigit? pointed = some pointed := by
    refine foldlM_eq_self fun character member => ?_
    rw [acceptDigit?, if_pos (List.mem_takeWhile_imp member)]
  unfold Digits.span
  split
  · next rest _ =>
      refine ⟨true, ?_, ?_⟩
      · simp [Digits.text, accepted, acceptDigit?]
      · intro character first
        have stops := not_of_mem_head_dropWhile character first
        simp [acceptDigit?, stops]
  · next noPoint =>
      refine ⟨false, accepted false text, ?_⟩
      intro character first
      have stops := not_of_mem_head_dropWhile character first
      have other : character ≠ '.' := by
        rintro rfl
        obtain ⟨others, remains⟩ := List.head?_eq_some_iff.mp first
        exact noPoint others remains
      simp [acceptDigit?, stops, other]

theorem pass?_nil : (between before []).pass? = some (.ended none (between before [])) := by
  rw [pass?, peek?_between]
  rfl

/-- A pass of the loop goes over one white space. -/
theorem pass?_blank {blank : Char} (isBlank : isWhiteSpace blank) (rest : List Char) :
    (between before (blank :: rest)).pass? =
      some (.skipped (between (before ++ [blank]) rest)) := by
  rw [pass?, peek?_between, advance?_between]
  simp [isBlank]

section Visible

variable {first : Char} (rest : List Char) (visible : ¬isWhiteSpace first)

include visible

theorem pass?_number (starts : first.isDigit ∨ first = '.') :
    (between before (first :: rest)).pass? =
      some (.ended (some (.number (ofList (Digits.span (first :: rest)).1.text)))
        (between (before ++ (Digits.span (first :: rest)).1.text)
          (Digits.span (first :: rest)).2)) := by
  obtain ⟨pointed, accepted, stops⟩ := exists_acceptDigit? (first :: rest)
  have taken := take?_between before accepted stops
  rw [Digits.text_append_span] at taken
  rw [pass?, peek?_between, taken]
  simp [visible, starts]

theorem pass?_identifier (letter : first.isAlpha) :
    (between before (first :: rest)).pass? =
      some (.ended (some (.identifier (ofList (first :: rest.takeWhile Char.isAlpha))))
        (between (before ++ first :: rest.takeWhile Char.isAlpha)
          (rest.dropWhile Char.isAlpha))) := by
  have accepted : (first :: rest.takeWhile Char.isAlpha).foldlM acceptLetter? () = some () := by
    refine foldlM_eq_self fun character member => ?_
    rcases List.mem_cons.mp member with rfl | after
    · rw [acceptLetter?, if_pos letter]
    · rw [acceptLetter?, if_pos (List.mem_takeWhile_imp after)]
  have stops : ∀ character ∈ (rest.dropWhile Char.isAlpha).head?,
      acceptLetter? () character = none := by
    intro character following
    rw [acceptLetter?, if_neg (not_of_mem_head_dropWhile character following)]
  have taken := take?_between before accepted stops
  rw [List.cons_append, List.takeWhile_append_dropWhile] at taken
  have noNumber := not_digit_or_point_of_letter letter
  rw [pass?, peek?_between, taken]
  simp [visible, noNumber, letter]

theorem pass?_ofCharacter (noNumber : ¬(first.isDigit ∨ first = '.')) (noLetter : ¬first.isAlpha) :
    (between before (first :: rest)).pass? =
      some (.ended (some (Token.ofCharacter first)) (between (before ++ [first]) rest)) := by
  rw [pass?, peek?_between, advance?_between]
  simp [visible, noNumber, noLetter]

/-- The last pass goes over the text of the token that is read. -/
theorem pass?_visible :
    ∃ token remaining, Token.next? (first :: rest) = some (token, remaining) ∧
      first :: rest = token.text.toList ++ remaining ∧
      (between before (first :: rest)).pass? =
        some (.ended (some token) (between (before ++ token.text.toList) remaining)) := by
  by_cases starts : first.isDigit ∨ first = '.'
  · refine ⟨_, _, Token.next_number rest visible starts, ?_, ?_⟩
    · rw [Token.text, String.toList_ofList, Digits.text_append_span]
    · rw [Token.text, String.toList_ofList, pass?_number before rest visible starts]
  · by_cases letter : first.isAlpha
    · refine ⟨_, _, Token.next_identifier rest visible letter, ?_, ?_⟩
      · rw [Token.text, String.toList_ofList, List.cons_append, List.takeWhile_append_dropWhile]
      · rw [Token.text, String.toList_ofList, pass?_identifier before rest visible letter]
    · refine ⟨_, _, Token.next_ofCharacter rest visible starts letter, ?_, ?_⟩
      · rw [Token.text_ofCharacter, String.toList_singleton, List.singleton_append]
      · rw [Token.text_ofCharacter, String.toList_singleton,
          pass?_ofCharacter before rest visible starts letter]

end Visible

/-- A call finds behind white space what it finds there without it. -/
theorem next?_blank {blank : Char} (isBlank : isWhiteSpace blank) (rest : List Char) :
    (between before (blank :: rest)).next? = (between (before ++ [blank]) rest).next? := by
  have fewer := bytesLeft_cons_lt before blank rest
  rw [next?, pass?_blank before isBlank]
  simp [fewer]

/-- A call goes over white space and the text of the token that is read, which is not empty. -/
theorem next?_of_read {rest remaining : List Char} {token : Token}
    (read : Token.next? rest = some (token, remaining)) :
    ∃ passed, passed ≠ [] ∧ rest = passed ++ remaining ∧
      (between before rest).next? = some (some token, between (before ++ passed) remaining) := by
  induction rest generalizing before with
  | nil => contradiction
  | cons first others ih =>
      by_cases blank : isWhiteSpace first
      · rw [← List.singleton_append, Token.next_blank (by simpa using blank)] at read
        obtain ⟨passed, -, same, moved⟩ := ih (before ++ [first]) read
        refine ⟨first :: passed, List.cons_ne_nil first passed, by rw [same, List.cons_append], ?_⟩
        rw [next?_blank before blank, moved, ← List.append_cons]
      · obtain ⟨own, after, found, same, ended⟩ := pass?_visible before others blank
        obtain ⟨rfl, rfl⟩ : own = token ∧ after = remaining := by simpa [found] using read
        refine ⟨own.text.toList, (Token.wellFormed_of_next found).text_ne_nil, same, ?_⟩
        rw [next?, ended]
        rfl

/-- A call that finds no token leaves nothing behind. -/
theorem next?_of_none {rest : List Char} (nothing : Token.next? rest = none) :
    (between before rest).next? = some (none, between (before ++ rest) []) := by
  -- White space goes over to the rest of a text, and is all that the induction needs.
  have blanks := Token.isWhiteSpace_of_next_none nothing
  clear nothing
  induction rest generalizing before with
  | nil =>
      rw [next?, pass?_nil, List.append_nil]
      rfl
  | cons blank others ih =>
      obtain ⟨here, after⟩ := List.forall_mem_cons.mp blanks
      rw [next?_blank before here, ih (before ++ [blank]) after, ← List.append_cons]

/-- The tokens that are read by bytes are those that are read by characters. -/
theorem tokens?_between (rest : List Char) :
    (between before rest).tokens? = some (Token.scan rest) := by
  fun_induction Token.scan rest generalizing before with
  | case1 rest nothing =>
      rw [tokens?, next?_of_none before nothing]
      rfl
  | case2 rest token remaining read _ ih =>
      obtain ⟨passed, some, rfl, moved⟩ := next?_of_read before read
      rw [tokens?, moved]
      simp [bytesLeft_lt before some remaining, ih]

/-- Reading a text by its bytes ends, and loses none of its tokens. -/
theorem tokens?_start (source : String) : (start source).tokens? = some (tokenize source) := by
  rw [start_eq_between, tokens?_between, tokenize]

/-- Each pass goes over one white space, unless it is the last one. -/
theorem pass?_between (rest : List Char) :
    (∃ blank others, rest = blank :: others ∧ isWhiteSpace blank ∧
      (between before rest).pass? = some (.skipped (between (before ++ [blank]) others))) ∨
    ∃ token? next, (between before rest).pass? = some (.ended token? next) := by
  cases rest with
  | nil => exact .inr ⟨none, between before [], pass?_nil before⟩
  | cons first others =>
      by_cases blank : isWhiteSpace first
      · exact .inl ⟨first, others, rfl, blank, pass?_blank before blank others⟩
      · obtain ⟨token, remaining, -, -, ended⟩ := pass?_visible before others blank
        exact .inr ⟨some token, _, ended⟩

/-- A call goes over some characters if it finds a token, and finds one unless there is only white
space. -/
theorem next?_between (rest : List Char) :
    ∃ token? passed remaining, rest = passed ++ remaining ∧
      (between before rest).next? = some (token?, between (before ++ passed) remaining) ∧
      (token? = none ↔ ∀ character ∈ rest, isWhiteSpace character) ∧
      (token? ≠ none → passed ≠ []) := by
  cases read : Token.next? rest with
  | none =>
      exact ⟨none, rest, [], (List.append_nil rest).symm, next?_of_none before read,
        iff_of_true rfl (Token.isWhiteSpace_of_next_none read), absurd rfl⟩
  | some found =>
      obtain ⟨passed, some, same, moved⟩ := next?_of_read before read
      refine ⟨found.1, passed, found.2, same, moved, ?_, fun _ => some⟩
      refine iff_of_false (Option.some_ne_none _) fun blanks => ?_
      have nothing := Token.next_blank blanks []
      rw [List.append_nil, read] at nothing
      contradiction

/-- Nothing moves a cursor into a character. -/
theorem Reached.eq_between {source : String} {cursor : Cursor} (reached : Reached source cursor) :
    ∃ before rest, source.toList = before ++ rest ∧ cursor = between before rest := by
  induction reached with
  | start => exact ⟨[], source.toList, rfl, start_eq_between source⟩
  | pass _ moved ih =>
      obtain ⟨before, rest, whole, rfl⟩ := ih
      rcases pass?_between before rest with
        ⟨blank, others, rfl, -, skipped⟩ | ⟨token?, next, ended⟩
      · obtain rfl : _ = _ := by simpa [skipped] using moved
        exact ⟨before ++ [blank], others, by rw [whole, List.append_cons], rfl⟩
      · simp [ended] at moved
  | call _ moved ih =>
      obtain ⟨before, rest, whole, rfl⟩ := ih
      obtain ⟨token?, passed, remaining, rfl, ended, -⟩ := next?_between before rest
      obtain ⟨-, rfl⟩ : _ ∧ _ := by simpa [ended] using moved
      exact ⟨before ++ passed, remaining, by rw [whole, List.append_assoc], rfl⟩

theorem between_eq {source : String} {before rest : List Char}
    (whole : source.toList = before ++ rest) : between before rest = ⟨source, utf8Len before⟩ := by
  rw [between, ← whole, String.ofList_toList]

/-- The cursor always stands behind whole characters, each call that finds a token and each pass
before it goes over some of them, and no call finds a token in white space alone. -/
theorem reached_advances {source : String} {cursor : Cursor} (reached : Reached source cursor) :
    ∃ before rest, source.toList = before ++ rest ∧ cursor = ⟨source, utf8Len before⟩ ∧
      cursor.rest? = some (ofList rest) ∧
      ((∃ blank others, rest = blank :: others ∧ isWhiteSpace blank ∧
          cursor.pass? = some (.skipped ⟨source, utf8Len (before ++ [blank])⟩)) ∨
        ∃ token? next, cursor.pass? = some (.ended token? next)) ∧
      (∃ token? passed remaining, rest = passed ++ remaining ∧
        cursor.next? = some (token?, ⟨source, utf8Len (before ++ passed)⟩) ∧
        (token? = none ↔ ∀ character ∈ rest, isWhiteSpace character) ∧
        (token? ≠ none → passed ≠ [])) ∧
      cursor.tokens? = some (Token.scan rest) := by
  obtain ⟨before, rest, whole, rfl⟩ := reached.eq_between
  refine ⟨before, rest, whole, between_eq whole, rest?_between before rest, ?_, ?_,
    tokens?_between before rest⟩
  · refine (pass?_between before rest).imp_left ?_
    rintro ⟨blank, others, rfl, isBlank, skipped⟩
    refine ⟨blank, others, rfl, isBlank, ?_⟩
    rw [skipped, between_eq (by rw [whole, List.append_cons])]
  · obtain ⟨token?, passed, remaining, rfl, moved, advances⟩ := next?_between before rest
    refine ⟨token?, passed, remaining, rfl, ?_, advances⟩
    rw [moved, between_eq (by rw [whole, List.append_assoc])]

theorem reached_advances_wide : Reached "\u3000π2" ⟨"\u3000π2", 5⟩ ∧
    (⟨"\u3000π2", 5⟩ : Cursor).rest? = some "2" ∧
    (⟨"\u3000π2", 5⟩ : Cursor).tokens? = some [.number "2"] := by
  have start : start "\u3000π2" = between [] ['\u3000', 'π', '2'] := start_eq_between _
  have moved : (Cursor.start "\u3000π2").next? = some (some (.unknown 'π'), ⟨"\u3000π2", 5⟩) := by
    rw [start, next?_blank _ (by decide), next?,
      pass?_ofCharacter _ _ (by decide) (by decide) (by decide)]
    rfl
  have reached := Reached.call .start moved
  obtain ⟨before, rest, whole, stands, slice, -, -, tokens⟩ := reached_advances reached
  have last : (⟨"\u3000π2", 5⟩ : Cursor).rest? = some "2" := by decide +kernel
  have only : ['2'] = rest := by
    rwa [last, Option.some.injEq, ← String.toList_inj, String.toList_ofList (l := rest)] at slice
  subst only
  refine ⟨reached, last, ?_⟩
  rw [tokens]
  decide +kernel

end Reckoner.Cursor
