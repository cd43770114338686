import Chunking.Proofs.ConstructorTexts
import Chunking.Proofs.ParameterReading
import Chunking.Proofs.TypeReader

/-!
# Types shown by a parameter list

What the extractor makes of a parameter list agrees with the reading of its tokens.
After each token the pieces between commas that are done have contributed what the
reader has met so far. For the piece that is still open there are three ways in which it
can go on. It is a parameter and shows its type; or what it contributes is settled,
whatever follows; or it is a single word up to now, and contributes nothing yet.

One lemma says what a token does to an open piece, and from it comes what a token does
to the reading, and then what a row of tokens does. The front of the next parameter is
the other step. A piece is cut off there, unless so many arrows have come before that the
count has wrapped around; then the front is a part of the open piece.

## Main definitions

* `EcmaScript.IsTypeToken`: The tokens of types that are read.
* `EcmaScript.Pending`: What the open piece contributes.
* `EcmaScript.ReadSoFar`: What has been read of a parameter list.

## Theorems

* `EcmaScript.Pending.token`, `EcmaScript.Pending.arrow`: What a token does to the open
  piece.
* `EcmaScript.ReadSoFar.token`: One token more.
* `EcmaScript.ReadSoFar.tokens`: All tokens of a type.
* `EcmaScript.ReadSoFar.cut`, `EcmaScript.ReadSoFar.join`: The front of the next parameter.
* `EcmaScript.ReadSoFar.listNames_eq`: What a whole list contributes.
-/

namespace Chunking.EcmaScript

open Text Pattern

/-- The tokens of types in TypeScript: identifiers are not empty, and the name of a
parameter is an identifier for the patterns as well. -/
def IsTypeToken : TypeToken → Prop
  | .word chars => chars ≠ [] ∧ ∀ c ∈ chars, isIdentifierPart c = true
  | .firstParameter name | .nextParameter name =>
    IsIdentifier name ∧ ∀ c ∈ name, isIdentifierPart c = true
  | .dot | .less | .comma | .greater | .brackets | .question | .bar | .noParameters | .arrow =>
    True

theorem IsTypeToken.sound {token : TypeToken} (h : IsTypeToken token) : token.Sound := by
  intro word hword
  cases token with
  | word chars =>
      cases hword
      exact h
  | firstParameter name | nextParameter name =>
      cases hword
      rcases h.1 with ⟨first, rest, rfl, _⟩
      exact ⟨List.cons_ne_nil first rest, h.2⟩
  | _ => cases hword

theorem IsTypeToken.not_mem_equals {token : TypeToken} (h : IsTypeToken token)
    (harrow : token.isArrow = false) : '=' ∉ token.text := by
  refine h.sound.not_mem_text (by decide) ?_
  cases token with
  | arrow => cases harrow
  | _ => simp [TypeToken.marks, TypeToken.text]

/-! ## Characters -/

theorem bracketChange_eq_zero {p : Char → Bool} {c : Char} (h : p c = true)
    (hbrackets : ∀ d ∈ ['<', '(', '[', '\x7b', '>', ')', ']', '\x7d'], p d = false) :
    bracketChange c = 0 := by
  have hmem : c ∉ ['<', '(', '[', '\x7b', '>', ')', ']', '\x7d'] := by
    intro hmem
    rw [hbrackets c hmem] at h
    cases h
  simp only [List.mem_cons, List.not_mem_nil, or_false, not_or] at hmem
  simp [bracketChange, hmem]

theorem netChange_eq_zero {p : Char → Bool} {text : List Char} (h : ∀ c ∈ text, p c = true)
    (hbrackets : ∀ d ∈ ['<', '(', '[', '\x7b', '>', ')', ']', '\x7d'], p d = false) :
    netChange text = 0 := by
  induction text with
  | nil => rfl
  | cons c text ih =>
      have hfirst := bracketChange_eq_zero (h c List.mem_cons_self) hbrackets
      have hrest := ih fun d hd => h d (List.mem_cons_of_mem c hd)
      rw [netChange_cons, hfirst, hrest]
      rfl

/-- The brackets of a token are those of its text. -/
theorem netChange_text {token : TypeToken} (h : IsTypeToken token) :
    netChange token.text = token.change := by
  have hname {chars : List Char} (h : ∀ c ∈ chars, isIdentifierPart c = true) :
      netChange chars = 0 :=
    netChange_eq_zero h (by decide)
  cases token with
  | word chars => exact hname h.2
  | firstParameter name =>
      have htext : TypeToken.text (.firstParameter name) = ['('] ++ name ++ [':', ' '] := rfl
      rw [htext, netChange_append, netChange_append, hname h.2]
      rfl
  | nextParameter name =>
      have htext : TypeToken.text (.nextParameter name) = [',', ' '] ++ name ++ [':', ' '] := rfl
      rw [htext, netChange_append, netChange_append, hname h.2]
      rfl
  | _ => rfl

/-! ## Cutting -/

variable {text current rest : List Char} {depth : Int32}

theorem topLevelPiecesFrom_append (h : ',' ∉ text) (depth : Int32) (current rest : List Char) :
    topLevelPiecesFrom depth current (text ++ rest) =
      topLevelPiecesFrom (depth + Int32.ofInt (netChange text)) (current ++ text) rest := by
  induction text generalizing depth current with
  | nil => simp [netChange]
  | cons c text ih =>
      have hc : ¬(c = ',' ∧ depth ≤ 0) := by
        rintro ⟨rfl, _⟩
        exact h List.mem_cons_self
      rw [List.cons_append, topLevelPiecesFrom, if_neg hc,
        ih fun hmem => h (List.mem_cons_of_mem c hmem), depthBehind_add_ofInt,
        List.append_assoc, List.singleton_append]

/-- A comma outside brackets cuts a piece off. -/
theorem topLevelPiecesFrom_comma (hdepth : depth ≤ 0) (current rest : List Char) :
    topLevelPiecesFrom depth current (',' :: rest) =
      current :: topLevelPiecesFrom depth [] rest := by
  rw [topLevelPiecesFrom, if_pos ⟨rfl, hdepth⟩]

-- Inside brackets a comma is a character like others.
theorem topLevelPiecesFrom_comma_append (hdepth : 0 < depth) (h : ',' ∉ text)
    (current rest : List Char) :
    topLevelPiecesFrom depth current (',' :: text ++ rest) =
      topLevelPiecesFrom (depth + Int32.ofInt (netChange (',' :: text)))
        (current ++ ',' :: text) rest := by
  have hcomma : ¬(',' = ',' ∧ depth ≤ 0) := fun hcut => Int32.not_le.mpr hdepth hcut.2
  rw [List.cons_append, topLevelPiecesFrom, if_neg hcomma, topLevelPiecesFrom_append h,
    depthBehind_add_ofInt, List.append_assoc, List.singleton_append]

/-- No token cuts a piece off inside brackets, and without a comma it never does. -/
theorem topLevelPiecesFrom_text {token : TypeToken} (h : IsTypeToken token)
    (hinside : ',' ∉ token.text ∨ 0 < depth) (current rest : List Char) :
    topLevelPiecesFrom depth current (token.text ++ rest) =
      topLevelPiecesFrom (depth + Int32.ofInt token.change) (current ++ token.text) rest := by
  rw [← netChange_text h]
  by_cases hcomma : ',' ∈ token.text
  · rcases h.sound.exists_of_comma hcomma with ⟨more, htext, hmore⟩
    rw [htext]
    exact topLevelPiecesFrom_comma_append (hinside.resolve_left (not_not.mpr hcomma)) hmore _ _
  · exact topLevelPiecesFrom_append hcomma _ _ _

/-! ## The open piece -/

/-- What a parameter contributes to the properties. -/
def propertyOf (modifiers : List String) (name : List Char) : List String :=
  if modifiers = [] then [] else [String.ofList name]

/-- What the open piece contributes, if nothing more comes: properties, and the
identifiers of a type. Whether types are shown at its end is said as well. -/
inductive Pending : List Char → Bool → List String → List (List Char) → Prop
  /-- A parameter and the beginning of its type. -/
  | shown {front type name : List Char} {modifiers : List String}
      (hfront : IsFront front modifiers name) (htype : '=' ∉ type) :
      Pending (front ++ ':' :: ' ' :: type) true (propertyOf modifiers name) (identifiers type)
  /-- What follows makes no difference. -/
  | hidden {current : List Char} {properties : List String} {words : List (List Char)}
      (h : ∀ more, pieceNames (current ++ more) = (properties, reportedAmong builtins words)) :
      Pending current false properties words
  /-- A single word up to now. -/
  | word {blanks word : List Char} (hblanks : ∀ c ∈ blanks, isBlank c = true)
      (hword : ∀ c ∈ word, isBlank c = false ∧ c ≠ ':' ∧ c ≠ '=') :
      Pending (blanks ++ word) false [] []

theorem pieceNames_of_not_mem (h : '=' ∉ text) : pieceNames text = parameterNames text := by
  have htake : text.takeWhile (· != '=') = text := by
    rw [List.takeWhile_eq_self_iff]
    intro c hc
    rw [bne_iff_ne]
    rintro rfl
    exact h hc
  rw [pieceNames, htake]

theorem pieceNames_of_equals (h : '=' ∉ text) (rest : List Char) :
    pieceNames (text ++ '=' :: rest) = parameterNames text := by
  have htake : (text ++ '=' :: rest).takeWhile (· != '=') = text := by
    rw [List.takeWhile_append_of_pos, List.takeWhile_cons_of_neg (by simp), List.append_nil]
    intro c hc
    rw [bne_iff_ne]
    rintro rfl
    exact h hc
  rw [pieceNames, htake]

-- With another character before the first colon and equals sign nothing is contributed.
theorem pieceNames_of_other {front : List Char} {c : Char} (hfront : ∀ d ∈ front, d ≠ ':' ∧ d ≠ '=')
    (hc : c ≠ ':' ∧ c ≠ '=') (hother : isFrontChar c = false) (rest : List Char) :
    pieceNames (front ++ c :: rest) = ([], []) := by
  have htake : (front ++ c :: rest).takeWhile (· != '=') =
      front ++ c :: rest.takeWhile (· != '=') := by
    rw [List.takeWhile_append_of_pos fun d hd => by simpa using (hfront d hd).2,
      List.takeWhile_cons_of_pos (by simpa using hc.2)]
  rw [pieceNames, htake]
  exact parameterNames_of_other (fun hmem => (hfront _ hmem).1 rfl) hc.1 hother

theorem IsFront.not_mem_equals {front name : List Char} {modifiers : List String}
    (h : IsFront front modifiers name) : '=' ∉ front := by
  intro hmem
  cases h.forall_isFrontChar _ hmem

theorem Pending.pieceNames_eq {shown : Bool} {properties : List String}
    {words : List (List Char)} (h : Pending current shown properties words) :
    pieceNames current = (properties, reportedAmong builtins words) := by
  cases h with
  | @shown front type name modifiers hfront htype =>
      have hequals : '=' ∉ front ++ ':' :: ' ' :: type := by
        simp [hfront.not_mem_equals, htype]
      have hspace : isIdentifierPart ' ' = false := by
        decide
      rw [pieceNames_of_not_mem hequals,
        parameterNames_annotated hfront (List.cons_ne_nil ' ' type), referencedTypes_eq,
        identifiers_cons hspace]
      rfl
  | hidden h => simpa using h []
  | @word blanks word hblanks hword =>
      have hequals : '=' ∉ blanks ++ word := by
        rw [List.mem_append, not_or]
        constructor
        · intro hmem
          cases hblanks _ hmem
        · exact fun hmem => (hword _ hmem).2.2 rfl
      rw [pieceNames_of_not_mem hequals,
        parameterNames_of_word hblanks fun c hc => ⟨(hword c hc).1, (hword c hc).2.1⟩]
      rfl

/-- What a token adds to the identifiers of a type. -/
theorem identifiers_append_text {token : TypeToken} (h : IsTypeToken token) {type : List Char}
    (hready : token.isWord = true → Apart type.getLast?) :
    identifiers (type ++ token.text) = identifiers type ++ token.identifier?.toList := by
  have hat {c : Char} (hc : isIdentifierPart c = false) (text : List Char) :
      identifiers (type ++ c :: text) = identifiers type ++ identifiers text :=
    identifiers_append_cons hc type text
  have hmarks {text : List Char} (h : (text.all fun c => !isIdentifierPart c) = true) :
      identifiers text = [] :=
    identifiers_of_separators (by simpa using h)
  have hname {name : List Char} (h : IsTypeToken (.firstParameter name)) :
      identifiers (name ++ [':', ' ']) = [name] := by
    have hword : identifiers name = [name] := (IsTypeToken.sound h).identifiers_eq rfl
    have hcolon : isIdentifierPart ':' = false := by
      decide
    rw [identifiers_append_cons hcolon, hword, hmarks (by decide)]
    rfl
  cases token with
  | word chars =>
      rw [identifiers_append (.inl (hready rfl))]
      exact congrArg _ (h.sound.identifiers_eq rfl)
  | firstParameter name =>
      exact (hat (c := '(') (by decide) _).trans (congrArg _ (hname h))
  | nextParameter name =>
      have hspace : isIdentifierPart ' ' = false := by
        decide
      refine (hat (c := ',') (by decide) _).trans (congrArg _ ?_)
      rw [identifiers_cons hspace]
      exact hname h
  | dot | less | comma | greater | brackets | question | bar | noParameters | arrow =>
      refine (hat (by decide) _).trans (congrArg _ ?_)
      exact hmarks (by decide)

theorem apart_getLast?_text {token : TypeToken} (h : token.isWord = false) (before : List Char) :
    Apart (before ++ token.text).getLast? := by
  have hlast {text : List Char} {c : Char} (hc : isIdentifierPart c = false) :
      Apart (before ++ (text ++ [c])).getLast? := by
    rw [← List.append_assoc, List.getLast?_concat]
    exact apart_some hc
  cases token with
  | word => cases h
  | firstParameter name =>
      simpa [TypeToken.text] using @hlast ('(' :: (name ++ [':'])) ' ' (by decide)
  | nextParameter name =>
      simpa [TypeToken.text] using @hlast (',' :: ' ' :: (name ++ [':'])) ' ' (by decide)
  | dot => exact @hlast [] '.' (by decide)
  | less => exact @hlast [] '<' (by decide)
  | comma => exact @hlast [','] ' ' (by decide)
  | greater => exact @hlast [] '>' (by decide)
  | brackets => exact @hlast ['['] ']' (by decide)
  | question => exact @hlast [] '?' (by decide)
  | bar => exact @hlast [' ', '|'] ' ' (by decide)
  | noParameters => exact @hlast [] '(' (by decide)
  | arrow => exact @hlast [')', ' ', '=', '>'] ' ' (by decide)

-- Such a character makes sure that the piece is no parameter.
theorem Pending.of_other {front : List Char} {c : Char} (hfront : ∀ d ∈ front, d ≠ ':' ∧ d ≠ '=')
    (hc : c ≠ ':' ∧ c ≠ '=') (hother : isFrontChar c = false) (rest : List Char) :
    Pending (front ++ c :: rest) false [] [] := by
  refine .hidden fun more => ?_
  rw [List.append_assoc, List.cons_append]
  exact pieceNames_of_other hfront hc hother (rest ++ more)

-- Neither a colon nor an equals sign is in a single word.
theorem forall_ne_of_word {blanks word : List Char} (hblanks : ∀ c ∈ blanks, isBlank c = true)
    (hword : ∀ c ∈ word, isBlank c = false ∧ c ≠ ':' ∧ c ≠ '=') :
    ∀ c ∈ blanks ++ word, c ≠ ':' ∧ c ≠ '=' := by
  rw [List.forall_mem_append]
  refine ⟨fun c hc => ⟨?_, ?_⟩, fun c hc => (hword c hc).2⟩ <;> rintro rfl <;>
    cases hblanks _ hc

/-- A token other than an arrow goes on with what is shown or hidden. -/
theorem Pending.token {shown : Bool} {properties : List String} {words : List (List Char)}
    (h : Pending current shown properties words) {token : TypeToken} (htoken : IsTypeToken token)
    (harrow : token.isArrow = false)
    (hready : token.isWord = true → Apart current.getLast?) :
    Pending (current ++ token.text) shown properties
      (words ++ if shown then token.identifier?.toList else []) := by
  cases h with
  | @shown front type name modifiers hfront htype =>
      have hready (hword : token.isWord = true) : Apart type.getLast? := by
        have hlast := hready hword
        rcases List.eq_nil_or_concat type with rfl | ⟨earlier, last, rfl⟩
        · exact apart_none
        · have htext : front ++ ':' :: ' ' :: earlier.concat last =
              (front ++ ':' :: ' ' :: earlier) ++ [last] := by
            simp
          rw [htext, List.getLast?_concat] at hlast
          simpa using hlast
      have hequals : '=' ∉ type ++ token.text := by
        rw [List.mem_append, not_or]
        exact ⟨htype, htoken.not_mem_equals harrow⟩
      have hmore := Pending.shown hfront hequals
      rw [identifiers_append_text htoken hready] at hmore
      simpa using hmore
  | hidden h =>
      refine .hidden fun more => ?_
      simpa using h (token.text ++ more)
  | @word blanks word hblanks hword =>
      have hfront := forall_ne_of_word hblanks hword
      have hother {before : List Char} {c : Char} {rest : List Char}
          (htext : token.text = before ++ c :: rest) (hbefore : ∀ d ∈ before, d ≠ ':' ∧ d ≠ '=')
          (hc : c ≠ ':' ∧ c ≠ '=') (hchar : isFrontChar c = false) :
          Pending (blanks ++ word ++ token.text) false [] [] := by
        rw [htext, ← List.append_assoc]
        exact .of_other (List.forall_mem_append.mpr ⟨hfront, hbefore⟩) hc hchar rest
      have hword' {chars : List Char} (h : ∀ c ∈ chars, isBlank c = false ∧ c ≠ ':' ∧ c ≠ '=') :
          Pending (blanks ++ word ++ chars) false [] [] := by
        rw [List.append_assoc]
        exact .word hblanks (List.forall_mem_append.mpr ⟨hword, h⟩)
      cases token with
      | word chars =>
          refine hword' fun c hc => ⟨?_, ?_, ?_⟩
          · by_contra hblank
            rw [Bool.not_eq_false] at hblank
            have hpart := htoken.2 c hc
            rw [isIdentifierPart_of_isBlank hblank] at hpart
            cases hpart
          · rintro rfl
            cases htoken.2 _ hc
          · rintro rfl
            cases htoken.2 _ hc
      | question => exact hword' (by decide)
      | bar => exact @hother [' '] '|' [' '] rfl (by decide) (by decide) (by decide)
      | arrow => cases harrow
      | dot | less | comma | greater | brackets | firstParameter | nextParameter | noParameters =>
          exact @hother [] _ _ rfl (by simp) (by decide) (by decide)

/-- Behind an arrow nothing is shown. -/
theorem Pending.arrow {shown : Bool} {properties : List String} {words : List (List Char)}
    (h : Pending current shown properties words) :
    Pending (current ++ TypeToken.arrow.text) false properties words := by
  cases h with
  | @shown front type name modifiers hfront htype =>
      refine .hidden fun more => ?_
      have hequals : '=' ∉ front ++ ':' :: ' ' :: (type ++ [')', ' ']) := by
        simp [hfront.not_mem_equals, htype]
      have htext : front ++ ':' :: ' ' :: type ++ TypeToken.arrow.text ++ more =
          (front ++ ':' :: ' ' :: (type ++ [')', ' '])) ++ '=' :: ('>' :: ' ' :: more) := by
        simp [TypeToken.text]
      have hspace : identifiers [' '] = [] := identifiers_of_separators (by decide)
      have hidentifiers : identifiers (' ' :: (type ++ [')', ' '])) = identifiers type := by
        rw [identifiers_cons (by decide), identifiers_append_cons (by decide),
          hspace, List.append_nil]
      rw [htext, pieceNames_of_equals hequals,
        parameterNames_annotated hfront (List.cons_ne_nil _ _), referencedTypes_eq, hidentifiers]
      rfl
  | hidden h =>
      refine .hidden fun more => ?_
      simpa using h (TypeToken.arrow.text ++ more)
  | @word blanks word hblanks hword =>
      exact .of_other (c := ')') (forall_ne_of_word hblanks hword) (by decide) (by decide) _

namespace IsFront

variable {front name : List Char} {modifiers : List String} (h : IsFront front modifiers name)

include h

/-- The front of a parameter has no brackets, and no commas. -/
theorem plain : ',' ∉ front ++ [':', ' '] ∧ netChange (front ++ [':', ' ']) = 0 := by
  have hchars : ∀ c ∈ front ++ [':', ' '], (isFrontChar c || c == ':') = true := by
    rw [List.forall_mem_append]
    exact ⟨fun c hc => by rw [h.forall_isFrontChar c hc, Bool.true_or], by decide⟩
  refine ⟨fun hmem => ?_, netChange_eq_zero hchars (by decide)⟩
  cases hchars _ hmem

theorem topLevelPiecesFrom_eq (depth : Int32) (current rest : List Char) :
    topLevelPiecesFrom depth current (front ++ [':', ' '] ++ rest) =
      topLevelPiecesFrom depth (current ++ (front ++ [':', ' '])) rest := by
  rw [topLevelPiecesFrom_append h.plain.1, h.plain.2]
  exact congrArg (topLevelPiecesFrom · _ _) (Int32.add_zero depth)

-- Inside brackets the front goes on with the open piece, with the comma before it.
theorem topLevelPiecesFrom_comma_eq {depth : Int32} (hdepth : 0 < depth)
    (current rest : List Char) :
    topLevelPiecesFrom depth current (',' :: (front ++ [':', ' ']) ++ rest) =
      topLevelPiecesFrom depth (current ++ ',' :: (front ++ [':', ' '])) rest := by
  have hcomma : bracketChange ',' = 0 := by
    decide
  rw [topLevelPiecesFrom_comma_append hdepth h.plain.1, netChange_cons, h.plain.2, hcomma]
  exact congrArg (topLevelPiecesFrom · _ _) (Int32.add_zero depth)

theorem pending : Pending (front ++ [':', ' ']) true (propertyOf modifiers name) [] := by
  have hpending := Pending.shown h (List.not_mem_nil (a := '='))
  rwa [identifiers_nil] at hpending

end IsFront

/-- The front of a parameter behind a comma goes on with what is shown or hidden, if no piece
is cut off before it. -/
theorem Pending.front {shown : Bool} {properties : List String} {words : List (List Char)}
    (h : Pending current shown properties words) {front name : List Char}
    {modifiers : List String} (hfront : IsFront front modifiers name) :
    Pending (current ++ ',' :: (front ++ [':', ' '])) shown properties
      (words ++ if shown then identifiers front else []) := by
  cases h with
  | @shown front' type name' modifiers' hfront' htype =>
      have hequals : '=' ∉ type ++ ',' :: (front ++ [':', ' ']) := by
        simp [hfront.not_mem_equals, htype]
      have hcomma : isIdentifierPart ',' = false := by
        decide
      have hcolon : isIdentifierPart ':' = false := by
        decide
      have hspace : identifiers [' '] = [] := identifiers_of_separators (by decide)
      have hmore := Pending.shown hfront' hequals
      rw [identifiers_append_cons hcomma, identifiers_append_cons hcolon, hspace,
        List.append_nil] at hmore
      simpa using hmore
  | hidden h =>
      refine .hidden fun more => ?_
      simpa using h (',' :: (front ++ [':', ' ']) ++ more)
  | @word blanks word hblanks hword =>
      exact .of_other (forall_ne_of_word hblanks hword) (by decide) (by decide) _

/-! ## Reading a list -/

/-- After this text a reading of a parameter list is at the given place. The pieces that
are done and the one that is still open contribute these properties, and the reported
ones of these identifiers. -/
def ReadSoFar (text : List Char) (reader : Reader) (properties : List String)
    (words : List (List Char)) : Prop :=
  ∃ finished current own last,
    (∀ rest, topLevelPieces (text ++ rest) =
      finished ++ topLevelPiecesFrom reader.depth current rest) ∧
    current <:+ text ∧ Pending current reader.shown own last ∧
    (finished.map pieceNames).flatMap Prod.fst ++ own = properties ∧
    (finished.map pieceNames).flatMap Prod.snd ++ reportedAmong builtins last =
      reportedAmong builtins words

namespace ReadSoFar

variable {reader next : Reader} {properties own : List String} {words new : List (List Char)}
  {more piece : List Char}

/-- What a whole list contributes. -/
theorem listNames_eq (h : ReadSoFar text reader properties words) :
    (listNames text).flatMap Prod.fst = properties ∧
      (listNames text).flatMap Prod.snd = reportedAmong builtins words := by
  rcases h with ⟨finished, current, own, last, hpieces, -, hpending, rfl, hwords⟩
  have hall := hpieces []
  rw [List.append_nil, topLevelPiecesFrom] at hall
  have hlast := hpending.pieceNames_eq
  rw [listNames, hall, List.map_append, List.flatMap_append, List.flatMap_append, ← hwords]
  simp [hlast]

-- The open piece goes on.
theorem goOn (h : ReadSoFar text reader properties words)
    (hpieces : ∀ current rest, topLevelPiecesFrom reader.depth current (more ++ rest) =
      topLevelPiecesFrom next.depth (current ++ more) rest)
    (hpending : ∀ {current own last}, Pending current reader.shown own last → current <:+ text →
      Pending (current ++ more) next.shown own (last ++ new)) :
    ReadSoFar (text ++ more) next properties (words ++ new) := by
  rcases h with ⟨finished, current, own, last, hdone, hsuffix, hopen, hproperties, hwords⟩
  refine ⟨finished, current ++ more, own, last ++ new, fun rest => ?_, ?_, hpending hopen hsuffix,
    hproperties, ?_⟩
  · rw [List.append_assoc, hdone, hpieces]
  · rcases hsuffix with ⟨before, rfl⟩
    exact ⟨before, by simp⟩
  · rw [reportedAmong_append, reportedAmong_append, ← hwords, List.append_assoc]

-- The open piece is cut off, and another one is open.
theorem cutOff (h : ReadSoFar text reader properties words)
    (hpieces : ∀ current rest, topLevelPiecesFrom reader.depth current (more ++ rest) =
      current :: topLevelPiecesFrom next.depth piece rest)
    (hpiece : piece <:+ more) (hpending : Pending piece next.shown own new) :
    ReadSoFar (text ++ more) next (properties ++ own) (words ++ new) := by
  rcases h with ⟨finished, current, own', last, hdone, hsuffix, hopen, rfl, hwords⟩
  have hlast := hopen.pieceNames_eq
  refine ⟨finished ++ [current], piece, own, new, fun rest => ?_, ?_, hpending, ?_, ?_⟩
  · rw [List.append_assoc, hdone, hpieces, List.append_assoc, List.singleton_append]
  · exact hpiece.trans (List.suffix_append text more)
  · simp [hlast]
  · rw [reportedAmong_append, ← hwords]
    simp [hlast]

/-- The front of the first parameter. -/
theorem first {front name : List Char} {modifiers : List String}
    (hfront : IsFront front modifiers name) :
    ReadSoFar (front ++ [':', ' ']) ⟨0, true⟩ (propertyOf modifiers name) [] :=
  ⟨[], _, _, [], fun rest => hfront.topLevelPiecesFrom_eq 0 [] rest, List.suffix_rfl,
    hfront.pending, rfl, rfl⟩

/-- The front of the next parameter, behind a comma outside brackets. -/
theorem cut (h : ReadSoFar text reader properties words) (hdepth : reader.depth ≤ 0)
    {front name : List Char} {modifiers : List String} (hfront : IsFront front modifiers name) :
    ReadSoFar (text ++ ',' :: (front ++ [':', ' '])) ⟨reader.depth, true⟩
      (properties ++ propertyOf modifiers name) words := by
  have hpieces (current rest : List Char) :
      topLevelPiecesFrom reader.depth current (',' :: (front ++ [':', ' ']) ++ rest) =
        current :: topLevelPiecesFrom reader.depth (front ++ [':', ' ']) rest := by
    rw [List.cons_append, topLevelPiecesFrom_comma hdepth, hfront.topLevelPiecesFrom_eq,
      List.nil_append]
  have hcut := @cutOff _ reader ⟨reader.depth, true⟩ _ _ _ _ _ _ h hpieces
    (List.suffix_cons ',' _) hfront.pending
  rwa [List.append_nil] at hcut

/-- The front of the next parameter, behind a comma inside brackets. -/
theorem join (h : ReadSoFar text reader properties words) (hdepth : 0 < reader.depth)
    {front name : List Char} {modifiers : List String} (hfront : IsFront front modifiers name) :
    ReadSoFar (text ++ ',' :: (front ++ [':', ' '])) reader properties
      (words ++ if reader.shown then identifiers front else []) :=
  h.goOn (hfront.topLevelPiecesFrom_comma_eq hdepth) fun hopen _ => hopen.front hfront

/-- One token more. -/
theorem token (h : ReadSoFar text reader properties words) {token : TypeToken}
    (htoken : IsTypeToken token) (hready : token.isWord = true → Apart text.getLast?) :
    ReadSoFar (text ++ token.text) (reader.next token) properties
      (words ++ reader.shows token) := by
  -- What is true of the end of the text is true of the end of the open piece.
  have hready {current : List Char} (hsuffix : current <:+ text) (hword : token.isWord = true) :
      Apart current.getLast? := by
    rcases hsuffix with ⟨before, rfl⟩
    intro c hc
    refine hready hword c ?_
    rw [List.getLast?_append, hc]
    rfl
  -- A token that cuts no piece off, and shows its identifier where types are shown.
  have hgoOn (hinside : ',' ∉ token.text ∨ 0 < reader.depth) (harrow : token.isArrow = false)
      (hshown : reader.showsBehind token = reader.shown)
      (hshows : reader.shows token = if reader.shown then token.identifier?.toList else []) :
      ReadSoFar (text ++ token.text) (reader.next token) properties
        (words ++ reader.shows token) := by
    refine h.goOn (topLevelPiecesFrom_text htoken hinside) fun hopen hsuffix => ?_
    rw [Reader.shown_next, hshown, hshows]
    exact hopen.token htoken harrow (hready hsuffix)
  have hcomma (hmarks : ',' ∉ token.marks) : ',' ∉ token.text ∨ 0 < reader.depth :=
    .inl (htoken.sound.not_mem_text (by decide) hmarks)
  cases token with
  | word => exact hgoOn (hcomma List.not_mem_nil) rfl rfl rfl
  | firstParameter => exact hgoOn (hcomma (by simp [TypeToken.marks])) rfl rfl rfl
  | dot | less | greater | brackets | question | bar | noParameters =>
      exact hgoOn (hcomma (by decide)) rfl rfl (ite_self _).symm
  | arrow =>
      refine h.goOn (topLevelPiecesFrom_text htoken (hcomma (by decide))) fun hopen _ => ?_
      have hnothing : reader.shows .arrow = [] := rfl
      rw [hnothing, List.append_nil, Reader.shown_next]
      exact hopen.arrow
  | comma =>
      by_cases hdepth : 0 < reader.depth
      · exact hgoOn (.inr hdepth) rfl (by simp [Reader.showsBehind, hdepth]) (ite_self _).symm
      · -- The next piece starts with a blank, and may be anything.
        have hpending : Pending ([' '] ++ []) (reader.next .comma).shown [] [] := by
          have hshown : (reader.next .comma).shown = false := by
            simp [Reader.shown_next, Reader.showsBehind, hdepth]
          rw [hshown]
          exact .word (by decide) fun c hc => absurd hc List.not_mem_nil
        have hcut := h.cutOff (fun current rest => ?_) (List.suffix_cons ',' [' ']) hpending
        · rwa [List.append_nil] at hcut
        · exact topLevelPiecesFrom_comma (Int32.not_lt.mp hdepth) current (' ' :: rest)
  | nextParameter name =>
      by_cases hdepth : 0 < reader.depth
      · exact hgoOn (.inr hdepth) rfl (by simp [Reader.showsBehind, hdepth])
          (by simp [Reader.shows, hdepth, TypeToken.identifier?])
      · -- The name makes a parameter of the next piece.
        have hfront : IsFront (' ' :: name) [] name :=
          ⟨[' '], [], by simp [spaced], by decide, by simp, htoken.1, .inl rfl⟩
        have hcut := h.cut (Int32.not_lt.mp hdepth) hfront
        have hnext : reader.next (.nextParameter name) = ⟨reader.depth, true⟩ := by
          simp [Reader.next, Reader.showsBehind, TypeToken.change, Int32.not_lt.mp hdepth]
        have hshows : reader.shows (.nextParameter name) = [] := by
          simp [Reader.shows, hdepth]
        have hproperty : propertyOf [] name = [] := rfl
        rw [hproperty, List.append_nil] at hcut
        rw [hnext, hshows, List.append_nil]
        exact hcut

/-- The tokens of a type. Behind an identifier no other one comes, so the end of the text
has to be known before the first token only. -/
theorem tokens (h : ReadSoFar text reader properties words) {tokens : List TypeToken}
    (htokens : ∀ token ∈ tokens, IsTypeToken token) (hchain : tokens.IsChain TypeToken.Meets)
    (hready : ∀ token ∈ tokens.head?, token.isWord = true → Apart text.getLast?) :
    ReadSoFar (text ++ textOf tokens) (reader.after tokens) properties
      (words ++ reader.words tokens) := by
  induction tokens generalizing text reader words with
  | nil => simpa [Reader.words, Reader.after] using h
  | cons token tokens ih =>
      rw [List.forall_mem_cons] at htokens
      rw [List.isChain_cons] at hchain
      have hnext := ih (h.token htokens.1 (hready token rfl)) htokens.2 hchain.2
        fun following hfollowing hword => ?_
      · simpa [Reader.words, Reader.after] using hnext
      · exact apart_getLast?_text ((hchain.1 following hfollowing).2 hword) text

end ReadSoFar

end Chunking.EcmaScript
