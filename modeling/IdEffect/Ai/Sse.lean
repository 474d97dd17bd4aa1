import Mathlib.Data.List.DropRight
import IdEffect.Parse.Json

set_option autoImplicit false

/-! # Server-sent events: `sse.rs`

The parser keeps the text after the last newline and the message it is in. A text means the groups
of its `event:` and `data:` lines (`groups`), and however it is cut into chunks, the parser finds
the groups of those lines that end with a newline: `finish` gives back the message it is in and
forgets the text that is left (`parse_eq`). So the last group is as it should be exactly if nothing
of it is in a line without a newline (`parsed_iff_kept`). -/

namespace IdEffect.Sse

open Parse (isWhitespace trimStart)

/-! ## The parser -/

abbrev Text : Type := List Char

structure SseMessage where
  event : Option Text
  dataLines : List Text
  deriving DecidableEq, Repr

namespace SseMessage

def default : SseMessage := ⟨none, []⟩

def isDefault (msg : SseMessage) : Bool := msg.dataLines.isEmpty && msg.event.isNone

theorem eq_default_of_isDefault {msg : SseMessage} (h : msg.isDefault = true) : msg = default := by
  obtain ⟨event, data⟩ := msg
  simp only [isDefault, Bool.and_eq_true, List.isEmpty_iff, Option.isNone_iff_eq_none] at h
  obtain ⟨rfl, rfl⟩ := h
  rfl

end SseMessage

structure SseParser where
  buffer : Text
  current : SseMessage

/-- `trim_end_matches(['\r', '\n'])` -/
def trimNewline (line : Text) : Text := line.rdropWhile fun c => c == '\r' || c == '\n'

def trim (text : Text) : Text := (trimStart text).rdropWhile isWhitespace

def splitOnce (sep : Char) : Text → Option (Text × Text)
  | [] => none
  | c :: cs => if c = sep then some ([], cs) else (splitOnce sep cs).map fun x => (c :: x.1, x.2)

/-- `find('\n')` and `drain(..=pos)` -/
def drainLine : Text → Option (Text × Text)
  | [] => none
  | c :: cs => if c = '\n' then some ([c], cs) else (drainLine cs).map fun x => (c :: x.1, x.2)

namespace SseMessage

/-- A round of the loop in `feed`: the message that the line completes, and the current one. -/
def feedLine (current : SseMessage) (line : Text) : Option SseMessage × SseMessage :=
  if (trimNewline line).isEmpty then
    if current.isDefault then (none, current) else (some current, default)
  else
    match splitOnce ':' (trimNewline line) with
    | some (name, value) =>
        if trim name = "event".toList then (none, { current with event := some (trimStart value) })
        else if trim name = "data".toList then
          (none, { current with dataLines := current.dataLines ++ [trimStart value] })
        else (none, current)
    | none => (none, current)

end SseMessage

theorem drainLine_spec (text : Text) :
    (drainLine text = none ∧ '\n' ∉ text) ∨ ∃ line rest,
      drainLine text = some (line ++ ['\n'], rest) ∧ '\n' ∉ line ∧ text = line ++ '\n' :: rest := by
  induction text with
  | nil => exact .inl ⟨rfl, List.not_mem_nil⟩
  | cons c cs ih =>
      rw [drainLine]
      by_cases hc : c = '\n'
      · subst hc
        exact .inr ⟨[], cs, rfl, List.not_mem_nil, rfl⟩
      · rw [if_neg hc]
        obtain ⟨hnone, hmem⟩ | ⟨line, rest, hsome, hmem, rfl⟩ := ih
        · rw [hnone]
          exact .inl ⟨rfl, by simp [Ne.symm hc, hmem]⟩
        · rw [hsome]
          exact .inr ⟨c :: line, rest, rfl, by simp [Ne.symm hc, hmem], rfl⟩

theorem drainLine_append {line : Text} (h : '\n' ∉ line) (rest : Text) :
    drainLine (line ++ '\n' :: rest) = some (line ++ ['\n'], rest) := by
  induction line with
  | nil => rfl
  | cons c cs ih =>
      rw [List.mem_cons, not_or] at h
      rw [List.cons_append, drainLine, if_neg (Ne.symm h.1), ih h.2]
      rfl

theorem drainLine_length {text line rest : Text} (h : drainLine text = some (line, rest)) :
    rest.length < text.length := by
  obtain ⟨hnone, -⟩ | ⟨line', rest', hsome, -, rfl⟩ := drainLine_spec text
  · rw [hnone] at h
    cases h
  · rw [hsome] at h
    cases h
    simp only [List.length_append, List.length_cons]
    omega

namespace SseParser

def new : SseParser := ⟨[], .default⟩

/-- The loop of `feed`. -/
def feedLoop (current : SseMessage) (buffer : Text) : List SseMessage × SseParser :=
  match _h : drainLine buffer with
  | none => ([], ⟨buffer, current⟩)
  | some (line, rest) =>
      let fed := feedLoop (current.feedLine line).2 rest
      ((current.feedLine line).1.toList ++ fed.1, fed.2)
termination_by buffer.length
decreasing_by exact drainLine_length ‹_›

def feed (p : SseParser) (chunk : Text) : List SseMessage × SseParser :=
  feedLoop p.current (p.buffer ++ chunk)

def finish (p : SseParser) : Option SseMessage :=
  if p.current.isDefault then none else some p.current

/-- All chunks are fed in order. -/
def feedAll (p : SseParser) : List Text → List SseMessage × SseParser
  | [] => ([], p)
  | chunk :: chunks =>
      let fed := p.feed chunk
      let fed' := fed.2.feedAll chunks
      (fed.1 ++ fed'.1, fed'.2)

/-- The messages of all chunks, and of `finish`. -/
def parse (chunks : List Text) : List SseMessage :=
  let fed := new.feedAll chunks
  fed.1 ++ fed.2.finish.toList

/-! ## Chunks -/

theorem feedLoop_none {current : SseMessage} {buffer : Text} (h : drainLine buffer = none) :
    feedLoop current buffer = ([], ⟨buffer, current⟩) := by
  rw [feedLoop]
  split
  · rfl
  · next hsome =>
      rw [h] at hsome
      cases hsome

theorem feedLoop_some {current : SseMessage} {buffer line rest : Text}
    (h : drainLine buffer = some (line, rest)) :
    feedLoop current buffer
      = ((current.feedLine line).1.toList ++ (feedLoop (current.feedLine line).2 rest).1,
        (feedLoop (current.feedLine line).2 rest).2) := by
  rw [feedLoop]
  split
  · next hnone =>
      rw [h] at hnone
      cases hnone
  · next line' rest' hsome =>
      rw [h] at hsome
      cases hsome
      rfl

/-- What is left of one text goes before the next. -/
theorem feedLoop_append (current : SseMessage) (text more : Text) :
    feedLoop current (text ++ more)
      = ((feedLoop current text).1 ++ ((feedLoop current text).2.feed more).1,
        ((feedLoop current text).2.feed more).2) := by
  induction hlen : text.length using Nat.strongRecOn generalizing current text with
  | ind len ih =>
      obtain ⟨hnone, -⟩ | ⟨line, rest, hsome, hmem, rfl⟩ := drainLine_spec text
      · rw [feedLoop_none hnone]
        rfl
      · have hmore : drainLine ((line ++ '\n' :: rest) ++ more)
            = some (line ++ ['\n'], rest ++ more) := by
          rw [List.append_assoc]
          exact drainLine_append hmem _
        rw [feedLoop_some hmore, feedLoop_some hsome, ih rest.length _ _ _ rfl, List.append_assoc]
        rw [← hlen]
        exact drainLine_length hsome

theorem feedLoop_flatten (chunks : List Text) : ∀ (current : SseMessage) (text : Text),
    feedLoop current (text ++ chunks.flatten)
      = ((feedLoop current text).1 ++ ((feedLoop current text).2.feedAll chunks).1,
        ((feedLoop current text).2.feedAll chunks).2) := by
  induction chunks with
  | nil =>
      intro current text
      rw [List.flatten_nil, List.append_nil, feedAll, List.append_nil]
  | cons chunk chunks ih =>
      intro current text
      rw [List.flatten_cons, feedLoop_append, feed, ← List.append_assoc, ih]
      rfl

/-- **It does not matter how the text arrives.** -/
theorem parse_flatten (chunks : List Text) : parse chunks = parse [chunks.flatten] := by
  have hall : ∀ cs : List Text, new.feedAll cs = feedLoop .default cs.flatten := by
    intro cs
    have hnil : feedLoop .default [] = ([], new) := feedLoop_none rfl
    have hflat : feedLoop .default ([] ++ cs.flatten) = _ := feedLoop_flatten cs .default []
    rw [hnil, List.nil_append] at hflat
    exact hflat.symm
  rw [parse, parse, hall, hall, List.flatten_cons, List.flatten_nil, List.append_nil]

end SseParser

/-! ## What a text means -/

/-- What there is to a line. -/
inductive Line where
  | blank
  | event (value : Text)
  | data (value : Text)
  | other
  deriving DecidableEq, Repr

namespace Line

def isBlank : Line → Bool
  | .blank => true
  | _ => false

def event? : Line → Option Text
  | .event value => some value
  | _ => none

def data? : Line → Option Text
  | .data value => some value
  | _ => none

def read (line : Text) : Line :=
  if trimNewline line = [] then .blank
  else
    match splitOnce ':' (trimNewline line) with
    | none => .other
    | some (name, value) =>
        if trim name = "event".toList then .event (trimStart value)
        else if trim name = "data".toList then .data (trimStart value)
        else .other

end Line

/-- The message of the lines of a group. -/
def collect (group : List Line) : SseMessage where
  event := (group.filterMap Line.event?).getLast?
  dataLines := group.filterMap Line.data?

/-- The messages of lines: their groups between blank lines that have anything in them. -/
def groups (ls : List Line) : List SseMessage :=
  ((ls.splitOnP Line.isBlank).map collect).filter fun msg => !msg.isDefault

/-- The lines that end with a newline. -/
def ended (text : Text) : List Line := (text.splitOn '\n').dropLast.map Line.read

/-- The text after the last newline. -/
def tail (text : Text) : Text := (text.splitOn '\n').getLast?.getD []

def lines (text : Text) : List Line :=
  ended text ++ if tail text = [] then [] else [Line.read (tail text)]

/-- The messages are the groups of the text, however it is cut, and each of its data lines is in one
    of them. -/
structure Parsed (chunks : List Text) (msgs : List SseMessage) : Prop where
  atOnce : msgs = SseParser.parse [chunks.flatten]
  groups : msgs = groups (lines chunks.flatten)
  data : msgs.flatMap SseMessage.dataLines = (lines chunks.flatten).filterMap Line.data?

/-- The group that the last of the lines is in. -/
def lastGroup (ls : List Line) : List Line := (ls.splitOnP Line.isBlank).getLast?.getD []

/-- Nothing of the last group is in a line without a newline: no data, and no event that is not
    there already. -/
def Kept (text : Text) : Prop :=
  match Line.read (tail text) with
  | .data _ => False
  | .event value => (collect (lastGroup (ended text))).event = some value
  | .blank | .other => True

/-! ## Lines, one after the other -/

/-- What a line does to the current message. -/
def SseMessage.take (current : SseMessage) : Line → Option SseMessage × SseMessage
  | .blank => if current.isDefault then (none, current) else (some current, .default)
  | .event value => (none, { current with event := some value })
  | .data value => (none, { current with dataLines := current.dataLines ++ [value] })
  | .other => (none, current)

def takeLines (current : SseMessage) : List Line → List SseMessage × SseMessage
  | [] => ([], current)
  | l :: ls =>
      ((current.take l).1.toList ++ (takeLines (current.take l).2 ls).1,
        (takeLines (current.take l).2 ls).2)

theorem feedLine_eq (current : SseMessage) (line : Text) :
    current.feedLine (line ++ ['\n']) = current.take (Line.read line) := by
  have htrim : trimNewline (line ++ ['\n']) = trimNewline line :=
    List.rdropWhile_concat_pos _ _ _ rfl
  rw [SseMessage.feedLine, htrim, Line.read]
  split
  · next hempty => rw [if_pos (List.isEmpty_iff.1 hempty), SseMessage.take]
  · next hempty =>
      rw [if_neg (List.isEmpty_iff.not.1 hempty)]
      cases splitOnce ':' (trimNewline line) with
      | none => rfl
      | some field =>
          obtain ⟨name, value⟩ := field
          simp only
          split
          · rfl
          · split <;> rfl

theorem ended_line {line : Text} (h : '\n' ∉ line) (rest : Text) :
    ended (line ++ '\n' :: rest) = Line.read line :: ended rest := by
  rw [ended, ended, List.splitOn_append_cons_self_of_not_mem h,
    List.dropLast_cons_of_ne_nil (List.splitOn_ne_nil _ _), List.map_cons]

theorem tail_line {line : Text} (h : '\n' ∉ line) (rest : Text) :
    tail (line ++ '\n' :: rest) = tail rest := by
  obtain ⟨first, more, hsplit⟩ := List.exists_cons_of_ne_nil (List.splitOn_ne_nil '\n' rest)
  rw [tail, tail, List.splitOn_append_cons_self_of_not_mem h, hsplit, List.getLast?_cons_cons]

/-- The loop of `feed` takes the lines that end with a newline, and leaves the rest. -/
theorem feedLoop_eq (current : SseMessage) (text : Text) :
    SseParser.feedLoop current text
      = ((takeLines current (ended text)).1, ⟨tail text, (takeLines current (ended text)).2⟩) := by
  induction hlen : text.length using Nat.strongRecOn generalizing current text with
  | ind len ih =>
      obtain ⟨hnone, hmem⟩ | ⟨line, rest, hsome, hmem, rfl⟩ := drainLine_spec text
      · rw [SseParser.feedLoop_none hnone, ended, tail, List.splitOn_eq_singleton hmem]
        rfl
      · have hlt : rest.length < len := hlen ▸ drainLine_length hsome
        rw [SseParser.feedLoop_some hsome, ih _ hlt _ _ rfl, feedLine_eq, ended_line hmem,
          tail_line hmem, takeLines]

theorem takeLines_append (ls ls' : List Line) : ∀ current : SseMessage,
    takeLines current (ls ++ ls')
      = ((takeLines current ls).1 ++ (takeLines (takeLines current ls).2 ls').1,
        (takeLines (takeLines current ls).2 ls').2) := by
  induction ls with
  | nil => exact fun _ => rfl
  | cons l ls ih =>
      intro current
      rw [List.cons_append, takeLines, takeLines, ih, List.append_assoc]

theorem collect_snoc (group : List Line) {l : Line} (h : l.isBlank = false) :
    (collect group).take l = (none, collect (group ++ [l])) := by
  cases l with
  | blank => cases h
  | event value | data value | other =>
      simp [SseMessage.take, collect, List.filterMap_append, Line.event?, Line.data?]

/-! ## Groups -/

/-- What `finish` gives back. -/
def flush (msg : SseMessage) : List SseMessage := if msg.isDefault then [] else [msg]

theorem finish_eq (p : SseParser) : p.finish.toList = flush p.current := by
  rw [SseParser.finish, flush]
  split <;> rfl

theorem take_blank (current : SseMessage) :
    (current.take .blank).1.toList = flush current ∧ (current.take .blank).2 = .default := by
  rw [SseMessage.take, flush]
  split
  · next h => exact ⟨rfl, SseMessage.eq_default_of_isDefault h⟩
  · exact ⟨rfl, rfl⟩

theorem groups_of_open {group : List Line} (h : ∀ l ∈ group, l.isBlank = false) :
    groups group = flush (collect group) := by
  rw [groups, List.splitOnP_eq_singleton h, List.map_singleton, flush]
  cases hmsg : (collect group).isDefault with
  | true => simp [hmsg]
  | false => simp [hmsg]

theorem groups_blank {group : List Line} (h : ∀ l ∈ group, l.isBlank = false) (ls : List Line) :
    groups (group ++ .blank :: ls) = flush (collect group) ++ groups ls := by
  rw [groups, List.splitOnP_append_cons _ _ rfl, List.map_append, List.filter_append,
    ← groups_of_open h]
  rfl

theorem lastGroup_blank (group ls : List Line) :
    lastGroup (group ++ .blank :: ls) = lastGroup ls := by
  have hne : ls.splitOnP Line.isBlank ≠ [] := List.splitOnP_ne_nil _ _
  rw [lastGroup, lastGroup, List.splitOnP_append_cons _ _ rfl, List.getLast?_append_of_ne_nil _ hne]

/-- Taking lines one after the other gives the groups, of which the last one is current. -/
theorem takeLines_spec (ls : List Line) : ∀ group : List Line,
    (∀ l ∈ group, l.isBlank = false) →
      (takeLines (collect group) ls).1 ++ flush (takeLines (collect group) ls).2
          = groups (group ++ ls)
        ∧ (takeLines (collect group) ls).2 = collect (lastGroup (group ++ ls)) := by
  induction ls with
  | nil =>
      intro group h
      rw [List.append_nil, lastGroup, List.splitOnP_eq_singleton h]
      exact ⟨(groups_of_open h).symm, rfl⟩
  | cons l ls ih =>
      intro group h
      cases hl : l.isBlank with
      | false =>
          have hgroup : ∀ l' ∈ group ++ [l], l'.isBlank = false := by
            intro l' hl'
            rcases List.mem_append.1 hl' with hl' | hl'
            · exact h l' hl'
            · exact List.mem_singleton.1 hl' ▸ hl
          have hrest := ih (group ++ [l]) hgroup
          rw [List.append_assoc] at hrest
          rw [takeLines, collect_snoc group hl]
          exact hrest
      | true =>
          have hblank : l = .blank := by
            cases l with
            | blank => rfl
            | event _ | data _ | other => cases hl
          subst hblank
          obtain ⟨hflush, hdefault⟩ := take_blank (collect group)
          have hrest := ih [] fun _ h => absurd h List.not_mem_nil
          rw [takeLines, hflush, hdefault, groups_blank h, lastGroup_blank, List.append_assoc]
          exact ⟨congrArg (_ ++ ·) hrest.1, hrest.2⟩

/-- **The parser finds the groups of the lines that end with a newline.** -/
theorem parse_eq (text : Text) : SseParser.parse [text] = groups (ended text) := by
  have hfeed : SseParser.new.feedAll [text] =
      ((takeLines .default (ended text)).1,
        ⟨tail text, (takeLines .default (ended text)).2⟩) := by
    rw [SseParser.feedAll, SseParser.feedAll, SseParser.feed, List.append_nil]
    exact feedLoop_eq .default text
  rw [SseParser.parse, hfeed, finish_eq]
  exact (takeLines_spec (ended text) [] fun _ h => absurd h List.not_mem_nil).1

/-! ## The last line -/

theorem flush_inj {msg msg' : SseMessage} (h : flush msg = flush msg') : msg = msg' := by
  rw [flush, flush] at h
  split at h
  · next hmsg =>
      split at h
      · next hmsg' =>
          rw [SseMessage.eq_default_of_isDefault hmsg, SseMessage.eq_default_of_isDefault hmsg']
      · cases h
  · split at h
    · cases h
    · exact List.singleton_inj.1 h

/-- One more line at the end changes nothing if it adds nothing to the last group. -/
theorem groups_snoc (ls : List Line) (l : Line) : groups ls = groups (ls ++ [l])
    ↔ match l with
      | .data _ => False
      | .event value => (collect (lastGroup ls)).event = some value
      | .blank | .other => True := by
  have hspec : ∀ ls : List Line,
      (takeLines .default ls).1 ++ flush (takeLines .default ls).2 = groups ls
        ∧ (takeLines .default ls).2 = collect (lastGroup ls) :=
    fun ls => takeLines_spec ls [] fun _ h => absurd h List.not_mem_nil
  rw [← (hspec ls).1, ← (hspec (ls ++ [l])).1, takeLines_append, ← (hspec ls).2,
    List.append_assoc, List.append_cancel_left_eq]
  generalize (takeLines .default ls).2 = current
  rw [takeLines, takeLines, List.append_nil]
  cases l with
  | blank =>
      obtain ⟨hflush, hdefault⟩ := take_blank current
      rw [hflush, hdefault]
      exact iff_of_true (List.append_nil _).symm trivial
  | other => exact iff_of_true rfl trivial
  | event value =>
      refine ⟨fun h => congrArg SseMessage.event (flush_inj h), fun h => congrArg flush ?_⟩
      rw [SseMessage.take, ← h]
  | data value =>
      refine iff_of_false (fun h => ?_) id
      have hdata := congrArg SseMessage.dataLines (flush_inj h)
      simp [SseMessage.take] at hdata

/-- A blank line ends the first group, any other line is put before it. -/
theorem splitOnP_isBlank_cons (l : Line) (ls : List Line) :
    ∃ group more, ls.splitOnP Line.isBlank = group :: more
      ∧ (l :: ls).splitOnP Line.isBlank
        = if l.isBlank then [] :: group :: more else (l :: group) :: more := by
  obtain ⟨group, more, hsplit⟩ :=
    List.exists_cons_of_ne_nil (List.splitOnP_ne_nil Line.isBlank ls)
  refine ⟨group, more, hsplit, ?_⟩
  rw [List.splitOnP_cons_eq_if_modifyHead, hsplit, List.modifyHead_cons]

/-- Every data line is in one of the groups. -/
theorem data_groups (ls : List Line) :
    (groups ls).flatMap SseMessage.dataLines = ls.filterMap Line.data? := by
  have hfilter : ∀ msgs : List SseMessage,
      (msgs.filter fun msg => !msg.isDefault).flatMap SseMessage.dataLines
        = msgs.flatMap SseMessage.dataLines := by
    intro msgs
    induction msgs with
    | nil => rfl
    | cons msg msgs ih =>
        cases hmsg : msg.isDefault with
        | true =>
            rw [List.filter_cons_of_neg (by simp [hmsg]), ih, List.flatMap_cons,
              SseMessage.eq_default_of_isDefault hmsg]
            rfl
        | false => rw [List.filter_cons_of_pos (by simp [hmsg]), List.flatMap_cons, ih,
            List.flatMap_cons]
  rw [groups, hfilter, List.flatMap_map]
  induction ls with
  | nil => rfl
  | cons l ls ih =>
      obtain ⟨group, more, hsplit, hcons⟩ := splitOnP_isBlank_cons l ls
      rw [hsplit] at ih
      rw [hcons]
      cases l with
      | blank => exact ih
      | other | event value => exact ih
      | data value => exact congrArg (value :: ·) ih

/-- **Parsing is right** if and only if nothing of the last group is in a line without a newline. -/
theorem parsed_iff_kept (chunks : List Text) :
    Parsed chunks (SseParser.parse chunks) ↔ Kept chunks.flatten := by
  have hlines : SseParser.parse chunks = groups (lines chunks.flatten) ↔ Kept chunks.flatten := by
    rw [SseParser.parse_flatten, parse_eq, lines, Kept]
    split
    · next htail =>
        rw [List.append_nil, htail]
        exact iff_of_true rfl trivial
    · exact groups_snoc _ _
  refine ⟨fun h => hlines.1 h.groups, fun h => ⟨SseParser.parse_flatten chunks, hlines.2 h, ?_⟩⟩
  rw [hlines.2 h, data_groups]

/-- The last line of `data: x` is lost. -/
theorem last_line_lost : ¬ Parsed ["data: x".toList] (SseParser.parse ["data: x".toList]) := by
  intro h
  have hgroups := h.groups
  rw [parse_eq] at hgroups
  exact absurd hgroups (by decide)

end IdEffect.Sse
