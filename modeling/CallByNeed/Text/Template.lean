import CallByNeed.Text.Layout
import CallByNeed.Text.Quoted

/-!
# Message templates

A template is a text with slots.  `{}` is the next slot in order and a number
between braces names a slot; a doubled brace stands for one brace.  Behind
its name a slot can lead to a character of its text or to what the host finds
in it under a name (`Parts`), and it can say how that is converted and laid
out.  `fill` puts one text into each slot, and `literal` writes any text as a
template without slots that fills to that text.
-/

namespace CallByNeed.Text

inductive TemplateFault where
  /-- The slot with this number has no text. -/
  | missing (index : Nat)
  /-- A named slot, of which there are none. -/
  | unnamed (name : String)
  /-- An opening brace at the end of the template. -/
  | loneOpening
  /-- A closing brace that closes nothing. -/
  | loneClosing
  | unclosed
  | nestedOpening
  /-- A numbered slot after one taken in order. -/
  | numberedAfterOrdered
  /-- A slot taken in order after a numbered one. -/
  | orderedAfterNumbered
  /-- A part of a text by a name that no part of it has. -/
  | noPart (name : String)
  /-- Any other error of the host about a part, by its kind and text. -/
  | ofPart (kind text : String)
  | emptyPart
  /-- A part that neither a point nor a bracket starts. -/
  | strayPart
  | notAnIndex
  /-- A character behind the end of the text. -/
  | noCharacter
  /-- The template ends where a conversion is named. -/
  | noConversion
  /-- More than one character names a conversion. -/
  | longConversion
  | unknownConversion (name : Char)
  | unclosedLayout
  /-- Slots in a layout of a slot in a layout. -/
  | tooDeep
  | layout (fault : LayoutFault)
deriving DecidableEq, Repr

/-- How the slots seen so far were named. -/
inductive Numbering where
  | undecided
  | ordered (next : Nat)
  | numbered
deriving DecidableEq, Repr

/-- The number that a text is. -/
def wholeNumber? (text : List Char) : Except TemplateFault (Option Nat) := do
  let (number, rest) ← (leadingNumber none text).mapError .layout
  return if rest.isEmpty then number else none

/-- The number of a slot, and the numbering after it. -/
def Numbering.slot (numbering : Numbering) (name : List Char) :
    Except TemplateFault (Nat × Numbering) :=
  if name.isEmpty then
    match numbering with
    | .undecided => .ok (0, .ordered 1)
    | .ordered next => .ok (next, .ordered (next + 1))
    | .numbered => .error .orderedAfterNumbered
  else do
    match ← wholeNumber? name, numbering with
    | none, _ => .error (.unnamed (String.ofList name))
    | some _, .ordered _ => .error .numberedAfterOrdered
    | some number, _ => .ok (number, .numbered)

/-- What stands between the braces of a slot. -/
structure Slot where
  /-- The name, and the path behind it. -/
  name : List Char
  conversion : Option Char
  layout : List Char
deriving DecidableEq, Repr

/-- Whether what follows a character is inside brackets. -/
def staysBracketed (bracketed : Bool) (char : Char) : Bool :=
  if bracketed then char ≠ ']' else char = '['

/-- Cuts a slot where its name ends: before a closing brace, a colon or an
exclamation mark.  Nothing ends the name inside brackets. -/
def cutName (bracketed : Bool) :
    List Char → Except TemplateFault (List Char × Char × List Char)
  | [] => .error .unclosed
  | char :: rest =>
    if !bracketed && char = '{' then .error .nestedOpening
    else if !bracketed && ['}', ':', '!'].contains char then .ok ([], char, rest)
    else do
      let (name, mark, after) ← cutName (staysBracketed bracketed char) rest
      .ok (char :: name, mark, after)

/-- The number of open braces behind a character. -/
def depthAfter (depth : Nat) (char : Char) : Nat :=
  if char = '{' then depth + 1 else if char = '}' then depth - 1 else depth

/-- Cuts a layout at the brace that closes its slot, `depth` being the number
of braces open inside it. -/
def cutLayout (depth : Nat) : List Char → Except TemplateFault (List Char × List Char)
  | [] => .error .unclosedLayout
  | char :: rest =>
    if char = '}' && depth = 0 then .ok ([], rest)
    else do
      let (layout, after) ← cutLayout (depthAfter depth char) rest
      .ok (char :: layout, after)

/-- Cuts a template where a slot ends, the opening brace of which is gone. -/
def cutSlot (template : List Char) : Except TemplateFault (Slot × List Char) := do
  let (name, mark, rest) ← cutName false template
  if mark = '}' then .ok (⟨name, none, []⟩, rest)
  else if mark = ':' then
    let (layout, rest) ← cutLayout 0 rest
    .ok (⟨name, none, layout⟩, rest)
  else
    match rest with
    | [] => .error .noConversion
    | [_] => .error .unclosedLayout
    | conversion :: '}' :: rest => .ok (⟨name, some conversion, []⟩, rest)
    | conversion :: ':' :: rest => do
        let (layout, rest) ← cutLayout 0 rest
        .ok (⟨name, some conversion, layout⟩, rest)
    | _ :: _ :: _ => .error .longConversion

/-- What follows a name is shorter than the text it was cut from. -/
theorem length_lt_of_cutName {bracketed : Bool} {text name after : List Char} {mark : Char}
    (cut : cutName bracketed text = .ok (name, mark, after)) :
    after.length < text.length := by
  induction text generalizing bracketed name with
  | nil => simp [cutName] at cut
  | cons char rest shorter =>
    rw [cutName] at cut
    split at cut
    · cases cut
    · split at cut
      · cases cut
        exact length_lt_of_cons _ _
      · cases inner : cutName (staysBracketed bracketed char) rest with
        | error fault => simp [inner, bind, Except.bind] at cut
        | ok found =>
          simp only [inner, bind, Except.bind, Except.ok.injEq, Prod.mk.injEq] at cut
          obtain ⟨_, rfl, rfl⟩ := cut
          exact Nat.lt_succ_of_lt (shorter inner)

/-- What follows a layout is shorter than the text it was cut from. -/
theorem length_lt_of_cutLayout {depth : Nat} {text layout after : List Char}
    (cut : cutLayout depth text = .ok (layout, after)) : after.length < text.length := by
  induction text generalizing depth layout with
  | nil => simp [cutLayout] at cut
  | cons char rest shorter =>
    rw [cutLayout] at cut
    split at cut
    · cases cut
      exact length_lt_of_cons _ _
    · cases inner : cutLayout (depthAfter depth char) rest with
      | error fault => simp [inner, bind, Except.bind] at cut
      | ok found =>
        simp only [inner, bind, Except.bind, Except.ok.injEq, Prod.mk.injEq] at cut
        obtain ⟨_, rfl⟩ := cut
        exact Nat.lt_succ_of_lt (shorter inner)

/-- What follows a slot is shorter than the template it was cut from. -/
theorem length_lt_of_cutSlot {template after : List Char} {slot : Slot}
    (cut : cutSlot template = .ok (slot, after)) : after.length < template.length := by
  cases named : cutName false template with
  | error fault => simp [cutSlot, named, bind, Except.bind] at cut
  | ok found =>
    obtain ⟨name, mark, rest⟩ := found
    have shorter := length_lt_of_cutName named
    simp only [cutSlot, named, bind, Except.bind] at cut
    split at cut
    · cases cut
      exact shorter
    · split at cut
      · cases laid : cutLayout 0 rest with
        | error fault => simp [laid] at cut
        | ok found =>
          simp only [laid, Except.ok.injEq, Prod.mk.injEq] at cut
          obtain ⟨_, rfl⟩ := cut
          exact Nat.lt_trans (length_lt_of_cutLayout laid) shorter
      · split at cut
        · cases cut
        · cases cut
        · cases cut
          simp only [List.length_cons] at shorter
          omega
        · rename_i conversion rest
          cases laid : cutLayout 0 rest with
          | error fault => simp [laid] at cut
          | ok found =>
            simp only [laid, Except.ok.injEq, Prod.mk.injEq] at cut
            obtain ⟨_, rfl⟩ := cut
            have := length_lt_of_cutLayout laid
            simp only [List.length_cons] at shorter
            omega
        · cases cut

/-- Whether a character belongs to a name, and not to the path behind it. -/
def inName (char : Char) : Bool :=
  char ≠ '.' && char ≠ '['

/-- A text in the layout that is written in its slot. -/
def laidOut (layout text : List Char) : Except TemplateFault (List Char) :=
  if layout.isEmpty then .ok text
  else do
    let layout ← (Layout.parse layout).mapError .layout
    return layout.apply text

/-- What a slot can stand for: how it is shown, as it is and quoted, and how it
is laid out. -/
structure Part where
  shown : List Char
  quoted : List Char
  laidOut : List Char → Except TemplateFault (List Char)

def Part.ofText (text : List Char) : Part :=
  ⟨text, (Text.quoted (String.ofList text)).toList, fun layout => Text.laidOut layout text⟩

/-- What a host finds in a text at the end of a path that starts with the name
of a part. -/
abbrev Parts := (text path : List Char) → Except TemplateFault Part

/-- The host for which no part of a text has a name. -/
def Parts.nameless : Parts := fun _ path =>
  .error (.noPart (String.ofList ((path.drop 1).takeWhile inName)))

/-- Follows a path from a text to one of its parts.  Numbers in brackets lead to
a character, and a name to what the host finds there. -/
def follow (parts : Parts) (text : List Char) : List Char → Except TemplateFault Part
  | [] => .ok (.ofText text)
  | '.' :: rest =>
    if (rest.takeWhile inName).isEmpty then .error .emptyPart else parts text ('.' :: rest)
  | '[' :: rest =>
    match split : rest.dropWhile (· ≠ ']') with
    | [] => .error .unclosed
    | _ :: after => do
        have : after.length < rest.length := length_lt_of_dropWhile split
        let item := rest.takeWhile (· ≠ ']')
        let index ← wholeNumber? item
        if item.isEmpty then throw .emptyPart
        match index with
        | none => .error .notAnIndex
        | some index =>
          match text[index]? with
          | none => .error .noCharacter
          | some char => follow parts [char] after
  | _ :: _ => .error .strayPart
termination_by path => path.length
decreasing_by
  simp only [List.length_cons]
  omega

/-- What a slot stands for, and the numbering after it. -/
def Slot.subject (slot : Slot) (parts : Parts) (subjects : List String)
    (numbering : Numbering) : Except TemplateFault (Part × Numbering) := do
  let (index, numbering) ← numbering.slot (slot.name.takeWhile inName)
  match subjects[index]? with
  | none => .error (.missing index)
  | some subject =>
    let part ← follow parts subject.toList (slot.name.dropWhile inName)
    .ok (part, numbering)

/-- A part as a slot converts it: as it is, shown, quoted, or quoted with escapes
for all but the first 128 characters. -/
def Slot.convert (slot : Slot) (part : Part) : Except TemplateFault Part :=
  match slot.conversion with
  | none => .ok part
  | some 's' => .ok (.ofText part.shown)
  | some 'r' => .ok (.ofText part.quoted)
  | some 'a' =>
    .ok (.ofText (part.quoted.flatMap fun char =>
      if char.toNat < 128 then [char] else (codeEscape char).toList))
  | some name => .error (.unknownConversion name)

/-- A template with its slots filled, and the numbering after it.  Slots in a
layout are filled first, as deep as `depth` says. -/
def filled (parts : Parts) (subjects : List String) (depth : Nat) (numbering : Numbering)
    (template : List Char) : Except TemplateFault (List Char × Numbering) :=
  match template with
  | [] => .ok ([], numbering)
  | '{' :: '{' :: rest => do
      let (tail, numbering) ← filled parts subjects depth numbering rest
      .ok ('{' :: tail, numbering)
  | '{' :: rest =>
    if rest.isEmpty then .error .loneOpening
    else
      match cut : cutSlot rest with
      | .error fault => .error fault
      | .ok (slot, after) => do
          have : after.length < rest.length := length_lt_of_cutSlot cut
          let (part, numbering) ← slot.subject parts subjects numbering
          let part ← slot.convert part
          let (layout, numbering) ←
            if slot.layout.contains '{' then
              match depth with
              | 0 => .error .tooDeep
              | depth + 1 => filled parts subjects depth numbering slot.layout
            else .ok (slot.layout, numbering)
          let shown ← part.laidOut layout
          let (tail, numbering) ← filled parts subjects depth numbering after
          .ok (shown ++ tail, numbering)
  | '}' :: '}' :: rest => do
      let (tail, numbering) ← filled parts subjects depth numbering rest
      .ok ('}' :: tail, numbering)
  | '}' :: _ => .error .loneClosing
  | char :: rest => do
      let (tail, numbering) ← filled parts subjects depth numbering rest
      .ok (char :: tail, numbering)
termination_by (depth, template.length)
decreasing_by
  all_goals simp only [List.length_cons]
  all_goals decreasing_tactic

/-- A template filled with the subjects, each one painted. -/
def fill (parts : Parts) (paint : String → String) (template : String)
    (subjects : List String) : Except TemplateFault String := do
  let (text, _) ← filled parts (subjects.map paint) 1 .undecided template.toList
  .ok (String.ofList text)

/-- A text as a template: every brace is doubled. -/
def literal (text : String) : String :=
  String.ofList <| text.toList.flatMap fun char =>
    if char = '{' || char = '}' then [char, char] else [char]

end CallByNeed.Text
