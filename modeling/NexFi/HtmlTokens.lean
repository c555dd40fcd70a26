import Mathlib.Data.UInt
import NexFi.StringRewriting

/-!
# Tokens of an HTML text

The tokenizer reads one code unit at a time and gives out the tags, the names of
their attributes and the quotes around attribute values. What is inside a quoted
value leaves no trace unless it is the quote, so a rewriting that happens inside
double quotes, and never writes one, keeps the markup. Elements whose content is
not markup (`script`, `style`, `textarea`, `title`) are left out.
-/

namespace NexFi.HtmlTokens
open StringRewriting

inductive State
  | data
  | tagOpen
  | endTagOpen
  | tagName
  | beforeAttributeName
  | attributeName
  | afterAttributeName
  | beforeAttributeValue
  | doubleQuoted
  | singleQuoted
  | unquoted
  | afterQuoted
  | selfClosingStartTag
  | markupDeclarationOpen
  | markupDeclarationDash
  | bogusComment
  | commentStart
  | commentStartDash
  | comment
  | commentEndDash
  | commentEnd
  | commentEndBang
  deriving DecidableEq

/-- What is left of a text when its data, values and comments are taken out. -/
inductive Piece
  | startTag
  | endTag
  | tagUnit (c : UInt16)
  | attributeStart
  | attributeUnit (c : UInt16)
  | quote (c : UInt16)
  | tagClose
  | selfClose
  deriving DecidableEq

def isSpace (c : UInt16) : Bool := c = 9 || c = 10 || c = 12 || c = 13 || c = 32

def isUpper (c : UInt16) : Bool := 65 ≤ c && c ≤ 90

def isAlpha (c : UInt16) : Bool := isUpper c || (97 ≤ c && c ≤ 122)

def lower (c : UInt16) : UInt16 := if isUpper c then c + 32 else c

def startAttribute (c : UInt16) : State × List Piece :=
  (.attributeName, [.attributeStart, .attributeUnit (lower c)])

def beforeAttribute (c : UInt16) : State × List Piece :=
  if isSpace c then (.beforeAttributeName, [])
  else if c = 47 then (.selfClosingStartTag, [])
  else if c = 62 then (.data, [.tagClose])
  else startAttribute c

def inBogusComment (c : UInt16) : State × List Piece :=
  (if c = 62 then .data else .bogusComment, [])

def inComment (c : UInt16) : State × List Piece :=
  (if c = 45 then .commentEndDash else .comment, [])

def step : State → UInt16 → State × List Piece
  | .data, c => (if c = 60 then .tagOpen else .data, [])
  | .tagOpen, c =>
    if c = 33 then (.markupDeclarationOpen, [])
    else if c = 47 then (.endTagOpen, [])
    else if isAlpha c then (.tagName, [.startTag, .tagUnit (lower c)])
    else if c = 63 then (.bogusComment, [])
    else (if c = 60 then .tagOpen else .data, [])
  | .endTagOpen, c =>
    if isAlpha c then (.tagName, [.endTag, .tagUnit (lower c)])
    else inBogusComment c
  | .tagName, c =>
    if isSpace c then (.beforeAttributeName, [])
    else if c = 47 then (.selfClosingStartTag, [])
    else if c = 62 then (.data, [.tagClose])
    else (.tagName, [.tagUnit (lower c)])
  | .beforeAttributeName, c => beforeAttribute c
  | .attributeName, c =>
    if isSpace c then (.afterAttributeName, [])
    else if c = 47 then (.selfClosingStartTag, [])
    else if c = 61 then (.beforeAttributeValue, [])
    else if c = 62 then (.data, [.tagClose])
    else (.attributeName, [.attributeUnit (lower c)])
  | .afterAttributeName, c =>
    if isSpace c then (.afterAttributeName, [])
    else if c = 61 then (.beforeAttributeValue, [])
    else beforeAttribute c
  | .beforeAttributeValue, c =>
    if isSpace c then (.beforeAttributeValue, [])
    else if c = 34 then (.doubleQuoted, [.quote c])
    else if c = 39 then (.singleQuoted, [.quote c])
    else if c = 62 then (.data, [.tagClose])
    else (.unquoted, [])
  | .doubleQuoted, c => if c = 34 then (.afterQuoted, [.quote c]) else (.doubleQuoted, [])
  | .singleQuoted, c => if c = 39 then (.afterQuoted, [.quote c]) else (.singleQuoted, [])
  | .unquoted, c =>
    if isSpace c then (.beforeAttributeName, [])
    else if c = 62 then (.data, [.tagClose])
    else (.unquoted, [])
  | .afterQuoted, c => beforeAttribute c
  | .selfClosingStartTag, c => if c = 62 then (.data, [.selfClose]) else beforeAttribute c
  | .markupDeclarationOpen, c =>
    if c = 45 then (.markupDeclarationDash, []) else inBogusComment c
  | .markupDeclarationDash, c => if c = 45 then (.commentStart, []) else inBogusComment c
  | .bogusComment, c => inBogusComment c
  | .commentStart, c =>
    if c = 45 then (.commentStartDash, [])
    else if c = 62 then (.data, [])
    else (.comment, [])
  | .commentStartDash, c =>
    if c = 45 then (.commentEnd, [])
    else if c = 62 then (.data, [])
    else (.comment, [])
  | .comment, c => inComment c
  | .commentEndDash, c => if c = 45 then (.commentEnd, []) else (.comment, [])
  | .commentEnd, c =>
    if c = 62 then (.data, [])
    else if c = 33 then (.commentEndBang, [])
    else if c = 45 then (.commentEnd, [])
    else (.comment, [])
  | .commentEndBang, c => if c = 62 then (.data, []) else inComment c

def after : State → List UInt16 → State
  | st, [] => st
  | st, c :: s => after (step st c).1 s

def pieces : State → List UInt16 → List Piece
  | _, [] => []
  | st, c :: s => (step st c).2 ++ pieces (step st c).1 s

/-- The markup of a text: its pieces, and where they leave the reader. -/
def markup (s : List UInt16) : List Piece × State := (pieces .data s, after .data s)

section Reading
variable (st : State) (l r : List UInt16)

@[simp] theorem after_append : after st (l ++ r) = after (after st l) r := by
  induction l generalizing st with
  | nil => rfl
  | cons c l ih =>
    rw [List.cons_append, after, after, ih]

@[simp] theorem pieces_append : pieces st (l ++ r) = pieces st l ++ pieces (after st l) r := by
  induction l generalizing st with
  | nil => rfl
  | cons c l ih =>
    rw [List.cons_append, pieces, pieces, after, ih, List.append_assoc]

end Reading

section Quoted
variable {v : List UInt16} (h : 34 ∉ v)
include h

theorem after_doubleQuoted : after .doubleQuoted v = .doubleQuoted := by
  induction v with
  | nil => rfl
  | cons c v ih =>
    have hc := List.ne_of_not_mem_cons h
    have hv := List.not_mem_of_not_mem_cons h
    rw [after, step, if_neg (Ne.symm hc), ih hv]

theorem pieces_doubleQuoted : pieces .doubleQuoted v = [] := by
  induction v with
  | nil => rfl
  | cons c v ih =>
    have hc := List.ne_of_not_mem_cons h
    have hv := List.not_mem_of_not_mem_cons h
    rw [pieces, step, if_neg (Ne.symm hc), ih hv, List.append_nil]

end Quoted

/-- The mark stands nowhere but inside double quotes. -/
def Guarded (mark : UInt16) : State → List UInt16 → Prop
  | _, [] => True
  | st, c :: s => (c = mark → st = .doubleQuoted) ∧ Guarded mark (step st c).1 s

def decideGuarded (mark : UInt16) : (st : State) → (s : List UInt16) → Decidable (Guarded mark st s)
  | _, [] => isTrue trivial
  | st, c :: s =>
    have := decideGuarded mark (step st c).1 s
    inferInstanceAs (Decidable ((c = mark → st = .doubleQuoted) ∧ Guarded mark (step st c).1 s))

instance (mark : UInt16) (st : State) (s : List UInt16) : Decidable (Guarded mark st s) :=
  decideGuarded mark st s

theorem guarded_append (mark : UInt16) (st : State) (l r : List UInt16) :
    Guarded mark st (l ++ r) ↔ Guarded mark st l ∧ Guarded mark (after st l) r := by
  induction l generalizing st with
  | nil => exact (true_and _).symm.to_iff
  | cons c l ih =>
    rw [List.cons_append, Guarded, Guarded, after, ih, and_assoc]

theorem guarded_doubleQuoted (mark : UInt16) {v : List UInt16} (h : 34 ∉ v) :
    Guarded mark .doubleQuoted v := by
  induction v with
  | nil => trivial
  | cons c v ih =>
    have hc := List.ne_of_not_mem_cons h
    have hv := List.not_mem_of_not_mem_cons h
    refine ⟨fun _ => rfl, ?_⟩
    rw [step, if_neg (Ne.symm hc)]
    exact ih hv

/-- The text leads from one state to another, with the mark inside double quotes only. -/
def Reads (mark : UInt16) (st : State) (s : List UInt16) (st' : State) : Prop :=
  Guarded mark st s ∧ after st s = st'

instance (mark : UInt16) (st : State) (s : List UInt16) (st' : State) :
    Decidable (Reads mark st s st') :=
  inferInstanceAs (Decidable (Guarded mark st s ∧ after st s = st'))

theorem Reads.append {mark : UInt16} {st mid st' : State} {l r : List UInt16}
    (hl : Reads mark st l mid) (hr : Reads mark mid r st') : Reads mark st (l ++ r) st' := by
  obtain ⟨hleft, rfl⟩ := hl
  obtain ⟨hright, rfl⟩ := hr
  exact ⟨(guarded_append mark st l r).mpr ⟨hleft, hright⟩, after_append st l r⟩

theorem reads_doubleQuoted (mark : UInt16) {v : List UInt16} (h : 34 ∉ v) :
    Reads mark .doubleQuoted v .doubleQuoted :=
  ⟨guarded_doubleQuoted mark h, after_doubleQuoted h⟩

/-- Rules whose left sides start with the mark, and that neither take nor write a quote. -/
structure QuoteFree (R : List UInt16 → List UInt16 → Prop) (mark : UInt16) : Prop where
  head : ∀ {p v}, R p v → ∃ w, p = mark :: w
  left : ∀ {p v}, R p v → 34 ∉ p
  right : ∀ {p v}, R p v → 34 ∉ v

namespace QuoteFree
variable {R : List UInt16 → List UInt16 → Prop} {mark : UInt16} (h : QuoteFree R mark)
include h

theorem step_markup {s t : List UInt16} (hguarded : Guarded mark .data s) (hstep : Step R s t) :
    Guarded mark .data t ∧ markup t = markup s := by
  obtain ⟨l, r, p, v, hrule, rfl, rfl⟩ := hstep.exists_rule
  rw [List.append_assoc, guarded_append, guarded_append] at hguarded
  obtain ⟨hleft, hplace, hright⟩ := hguarded
  -- the mark that starts the left side says where the reader is
  have hquoted : after .data l = .doubleQuoted := by
    obtain ⟨w, rfl⟩ := h.head hrule
    exact hplace.1 rfl
  have hp := h.left hrule
  have hv := h.right hrule
  rw [hquoted, after_doubleQuoted hp] at hright
  refine ⟨?_, ?_⟩
  · rw [List.append_assoc, guarded_append, guarded_append, hquoted, after_doubleQuoted hv]
    exact ⟨hleft, guarded_doubleQuoted mark hv, hright⟩
  · simp only [markup, pieces_append, after_append, hquoted, after_doubleQuoted hp,
      after_doubleQuoted hv, pieces_doubleQuoted hp, pieces_doubleQuoted hv]

theorem reduces_markup {s t : List UInt16} (hguarded : Guarded mark .data s)
    (hreduces : Reduces R s t) : Guarded mark .data t ∧ markup t = markup s := by
  induction hreduces with
  | refl => exact ⟨hguarded, rfl⟩
  | tail _ hstep ih =>
    obtain ⟨hmiddle, hsame⟩ := ih
    obtain ⟨hlast, hnext⟩ := h.step_markup hmiddle hstep
    exact ⟨hlast, hnext.trans hsame⟩

end QuoteFree

end NexFi.HtmlTokens
