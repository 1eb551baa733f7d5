/-
This file reads the tokens of a text by its bytes. A cursor counts the bytes behind it, and no part
of the text starts or ends inside a character: a function that asks for such a part gives none, and
so does a loop that stays where it is, which does not end.
-/

import Reckoner.Token.Scan

namespace Reckoner

structure Cursor where
  source : String
  /-- The bytes behind the cursor. -/
  offset : Nat
deriving DecidableEq

namespace Cursor

def start (source : String) : Cursor := ⟨source, 0⟩

def bytesLeft (cursor : Cursor) : Nat := cursor.source.utf8ByteSize - cursor.offset

/-- The bytes from the first offset to the last are a text if no character goes across either. -/
def slice? (source : String) (first last : Nat) : Option String :=
  if edges : first ≤ last ∧ String.Pos.Raw.IsValid source ⟨first⟩ ∧
      String.Pos.Raw.IsValid source ⟨last⟩ then
    some (source.extract ⟨⟨first⟩, edges.2.1⟩ ⟨⟨last⟩, edges.2.2⟩)
  else none

def rest? (cursor : Cursor) : Option String :=
  slice? cursor.source cursor.offset cursor.source.utf8ByteSize

/-- Behind the last character there is none. -/
def peek? (cursor : Cursor) : Option (Option Char) :=
  cursor.rest?.map fun rest => rest.toList.head?

def advance? (cursor : Cursor) : Option (Option Char × Cursor) := do
  match ← cursor.peek? with
  | none => return (none, cursor)
  | some character => return (some character, ⟨cursor.source, cursor.offset + character.utf8Size⟩)

/-- The cursor moves as long as the next character is accepted, which may depend on those before. -/
def skip? {σ : Type} (accept? : σ → Char → Option σ) (state : σ) (cursor : Cursor) :
    Option Cursor := do
  match ← cursor.peek? with
  | none => return cursor
  | some character =>
      match accept? state character with
      | none => return cursor
      | some reached =>
          let (_, next) ← cursor.advance?
          if next.bytesLeft < cursor.bytesLeft then skip? accept? reached next else none
termination_by cursor.bytesLeft

/-- The text is the one that is passed over. -/
def take? {σ : Type} (accept? : σ → Char → Option σ) (state : σ) (cursor : Cursor) :
    Option (String × Cursor) := do
  let next ← cursor.skip? accept? state
  let text ← slice? cursor.source cursor.offset next.offset
  return (text, next)

/-- The state tells whether there was a point. -/
def acceptDigit? (pointed : Bool) (character : Char) : Option Bool :=
  if character.isDigit then some pointed
  else if character == '.' && !pointed then some true
  else none

def acceptLetter? (_ : Unit) (character : Char) : Option Unit :=
  if character.isAlpha then some () else none

/-- A pass of the search for a token goes over one white space, or it is the last one. -/
inductive Pass where
  | skipped (next : Cursor)
  | ended (token? : Option Token) (next : Cursor)

def pass? (cursor : Cursor) : Option Pass := do
  match ← cursor.peek? with
  | none => return .ended none cursor
  | some first =>
      if isWhiteSpace first then
        let (_, next) ← cursor.advance?
        return .skipped next
      else if first.isDigit || first == '.' then
        let (text, next) ← cursor.take? acceptDigit? false
        return .ended (some (.number text)) next
      else if first.isAlpha then
        let (text, next) ← cursor.take? acceptLetter? ()
        return .ended (some (.identifier text)) next
      else
        let (symbol?, next) ← cursor.advance?
        return .ended (symbol?.map Token.ofCharacter) next

def next? (cursor : Cursor) : Option (Option Token × Cursor) := do
  match ← cursor.pass? with
  | .skipped next => if next.bytesLeft < cursor.bytesLeft then next.next? else none
  | .ended token? next => return (token?, next)
termination_by cursor.bytesLeft

def tokens? (cursor : Cursor) : Option (List Token) := do
  match ← cursor.next? with
  | (none, _) => return []
  | (some token, next) =>
      let others ← if next.bytesLeft < cursor.bytesLeft then next.tokens? else none
      return token :: others
termination_by cursor.bytesLeft

/-- The state stands between two calls, or between two passes of one call. -/
inductive Reached (source : String) : Cursor → Prop where
  | start : Reached source (.start source)
  | pass {cursor next : Cursor} :
      Reached source cursor → cursor.pass? = some (.skipped next) → Reached source next
  | call {cursor next : Cursor} {token? : Option Token} :
      Reached source cursor → cursor.next? = some (token?, next) → Reached source next

end Cursor

end Reckoner
