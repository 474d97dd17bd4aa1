import IdEffect.Parse.JsonLeaves

set_option autoImplicit false

/-! # What the JSON parser accepts

The parser reads exactly the texts of the relaxed dialect, with their values: `Derives.reads` is the
completeness of the recursive descent, by induction over derivations, and `parse_sound` its
soundness, by induction over the fuel. On the texts of JSON itself it either reads a text of the
plain dialect or it fails: `Derives.plain_or_rejects`. The three together say on which inputs it is
a JSON parser. -/

namespace IdEffect.Parse

open Schema (Unknown Outcome)

variable {f64 : List Char → Float}

/-! ## How a text begins -/

/-- The dialects at hand: whitespace is trimmed, and a number begins with a minus or a digit. -/
structure Dialect.Readable (d : Dialect) : Prop where
  ws : ∀ {c}, d.ws c → isWhitespace c = true
  number : ∀ {text v}, d.number text v → ∃ c cs, text = c :: cs ∧ (c = '-' ∨ c.isDigit = true)

theorem Dialect.Ws.allWs {d : Dialect} (hd : d.Readable) {w : List Char} (h : d.Ws w) : AllWs w :=
  fun c hc => hd.ws (h c hc)

theorem not_isWhitespace_of_isDigit {c : Char} (h : c.isDigit = true) : isWhitespace c = false := by
  have hrange : 48 ≤ c.toNat ∧ c.toNat ≤ 57 := by
    rw [Char.isDigit, Bool.and_eq_true, decide_eq_true_eq, decide_eq_true_eq] at h
    exact ⟨UInt32.le_iff_toNat_le.mp h.1, UInt32.le_iff_toNat_le.mp h.2⟩
  simp only [isWhitespace, Bool.or_eq_false_iff, Bool.and_eq_false_iff, decide_eq_false_iff_not,
    beq_eq_false_iff_ne]
  omega

/-- A character with which a value can begin. -/
def Opens (c : Char) : Prop := isWhitespace c = false ∧ c ≠ ']' ∧ c ≠ '\x7d'

theorem opens_of_number {c : Char} (h : c = '-' ∨ c.isDigit = true) : Opens c := by
  rcases h with rfl | h
  · exact ⟨rfl, by decide, by decide⟩
  · refine ⟨not_isWhitespace_of_isDigit h, ?_, ?_⟩
    · rintro rfl
      exact absurd h (by decide)
    · rintro rfl
      exact absurd h (by decide)

/-- How a text begins: a value does not begin with whitespace, and nothing begins with a closing
    bracket. -/
def Begins (text : List Char) : Sem → Prop
  | .value _ => ∃ c cs, text = c :: cs ∧ Opens c
  | _ => ∀ rest, ∃ c cs, trimStart (text ++ rest) = c :: cs ∧ Opens c

theorem Derives.begins {d : Dialect} (hd : d.Readable) {text : List Char} {sem : Sem}
    (h : Derives d text sem) : Begins text sem := by
  have hlit : ∀ (c : Char) (cs : List Char), Opens c → ∃ c' cs', c :: cs = c' :: cs' ∧ Opens c' :=
    fun c cs hc => ⟨c, cs, rfl, hc⟩
  induction h with
  | null | true_ | false_ | string _ | emptyArray _ | array _ _ | emptyObject _ | object _ _ =>
      exact hlit _ _ ⟨rfl, by decide, by decide⟩
  | number h =>
      obtain ⟨c, cs, rfl, hc⟩ := hd.number h
      exact ⟨c, cs, rfl, opens_of_number hc⟩
  | @element w text w' v hw _ _ ih =>
      intro rest
      obtain ⟨c, cs, rfl, hc⟩ := ih
      refine ⟨c, cs ++ (w' ++ rest), ?_, hc⟩
      rw [List.append_assoc, trimStart_append (hw.allWs hd), List.cons_append, List.cons_append,
        trimStart_cons hc.1, List.append_assoc]
  | lastItem _ ih => exact ih
  | nextItem _ _ ih _ =>
      intro rest
      rw [List.append_assoc]
      exact ih _
  | @member w body key w' text v hw _ _ _ _ =>
      intro rest
      refine ⟨'"', body ++ '"' :: (w' ++ ':' :: text) ++ rest, ?_, rfl, by decide, by decide⟩
      rw [List.append_assoc, trimStart_append (hw.allWs hd), List.cons_append, trimStart_cons rfl]
  | lastMember _ ih => exact ih
  | nextMember _ _ ih _ =>
      intro rest
      rw [List.append_assoc]
      exact ih _

theorem relaxed_readable : (relaxed f64).Readable where
  ws := id
  number := by
    have hhead : ∀ {neg : Bool} {digits : List Char} (rest : List Char), Digits digits →
        ∃ c cs, minus neg ++ digits ++ rest = c :: cs ∧ (c = '-' ∨ c.isDigit = true) := by
      intro neg digits rest hd
      cases neg with
      | true => exact ⟨'-', digits ++ rest, rfl, .inl rfl⟩
      | false =>
          obtain ⟨c, cs, rfl⟩ := List.exists_cons_of_ne_nil hd.1
          exact ⟨c, cs ++ rest, rfl, .inr (hd.2 c (List.mem_cons_self ..))⟩
    rintro text v (⟨hd, _⟩ | ⟨hd, _⟩)
    · simpa using hhead [] hd
    · exact hhead _ hd

/-! ## Which function reads a value -/

theorem parseValue_append {w : List Char} (hw : AllWs w) (n : ℕ) (cs : List Char) :
    parseValue f64 n (w ++ cs) = parseValue f64 n cs := by
  cases n with
  | zero => rfl
  | succ n => rw [parseValue, parseValue, trimStart_append hw]

theorem parseValue_trimStart (n : ℕ) (cs : List Char) :
    parseValue f64 n (trimStart cs) = parseValue f64 n cs := by
  cases n with
  | zero => rfl
  | succ n => rw [parseValue, parseValue, trimStart_trimStart]

theorem parseValue_cons {c : Char} (h : isWhitespace c = false) (n : ℕ) (cs : List Char) :
    parseValue f64 (n + 1) (c :: cs)
      = if c = '"' then parseString (c :: cs)
        else if c = '\x7b' then parseObject (parseObjectLoop f64 n) (c :: cs)
        else if c = '[' then parseArray (parseArrayLoop f64 n) (c :: cs)
        else if c = 't' ∨ c = 'f' then parseBool (c :: cs)
        else if c = 'n' then parseNull (c :: cs)
        else if c = '-' ∨ c.isDigit then parseNumber f64 (c :: cs)
        else .error ⟨"", "expected JSON value"⟩ := by
  rw [parseValue, trimStart_cons h]

theorem parseValue_string (n : ℕ) (cs : List Char) :
    parseValue f64 (n + 1) ('"' :: cs) = parseStringLoop [] false cs := by
  rw [parseValue_cons rfl, if_pos rfl, parseString]

theorem parseValue_object (n : ℕ) (cs : List Char) :
    parseValue f64 (n + 1) ('\x7b' :: cs)
      = parseObject (parseObjectLoop f64 n) ('\x7b' :: cs) := by
  rw [parseValue_cons rfl, if_neg (by decide), if_pos rfl]

theorem parseValue_array (n : ℕ) (cs : List Char) :
    parseValue f64 (n + 1) ('[' :: cs) = parseArray (parseArrayLoop f64 n) ('[' :: cs) := by
  rw [parseValue_cons rfl, if_neg (by decide), if_neg (by decide), if_pos rfl]

theorem parseValue_number {c : Char} (h : c = '-' ∨ c.isDigit = true) (n : ℕ) (cs : List Char) :
    parseValue f64 (n + 1) (c :: cs) = parseNumber f64 (c :: cs) := by
  have hne : ∀ d : Char, d ≠ '-' → d.isDigit = false → c ≠ d := by
    rintro d hminus hdigit rfl
    rcases h with h | h
    · exact hminus h
    · exact absurd h (by simp [hdigit])
  rw [parseValue_cons (opens_of_number h).1, if_neg (hne _ (by decide) (by decide)),
    if_neg (hne _ (by decide) (by decide)), if_neg (hne _ (by decide) (by decide)),
    if_neg (not_or.mpr ⟨hne _ (by decide) (by decide), hne _ (by decide) (by decide)⟩),
    if_neg (hne _ (by decide) (by decide)), if_pos h]

/-! ## Completeness -/

/-- How the parser reads a text of each kind, in front of anything that may follow it. -/
def Reads (f64 : List Char → Float) (text : List Char) : Sem → Prop
  | .value v => ∀ n rest, 2 * text.length + 1 ≤ n → Follow rest →
      parseValue f64 n (text ++ rest) = .ok (v, rest)
  | .element v => ∀ n rest, 2 * text.length + 1 ≤ n → Follow rest →
      ∃ w, AllWs w ∧ parseValue f64 n (text ++ rest) = .ok (v, w ++ rest)
  | .items vs => ∀ n out rest, 2 * text.length + 2 ≤ n →
      parseArrayLoop f64 n out (trimStart (text ++ ']' :: rest)) = .ok (.array (out ++ vs), rest)
  | .member key v => ∀ n rest, 2 * text.length + 1 ≤ n → Follow rest →
      ∃ w, AllWs w ∧ parseMember (parseValue f64 n) (trimStart (text ++ rest))
        = .ok ((key, v), w ++ rest)
  | .members kvs => ∀ n map rest, 2 * text.length + 2 ≤ n →
      parseObjectLoop f64 n map (trimStart (text ++ '\x7d' :: rest))
        = .ok (.object (kvs.foldl (fun m p => Assoc.insert p.1 p.2 m) map), rest)

theorem follow_cons {c : Char} (hd : c.isDigit = false) (hdot : c ≠ '.') (rest : List Char) :
    Follow (c :: rest) :=
  ⟨fun c' hc => by rw [← Option.some.inj hc]; exact hd, fun h => hdot (Option.some.inj h)⟩

theorem follow_nil : Follow [] := ⟨fun _ h => absurd h (by simp), by simp⟩

/-- Whitespace ends a number as well. -/
theorem Follow.append {w rest : List Char} (hw : AllWs w) (hr : Follow rest) :
    Follow (w ++ rest) := by
  cases w with
  | nil => exact hr
  | cons c w =>
      have hc : isWhitespace c = true := hw c (List.mem_cons_self ..)
      refine follow_cons ?_ ?_ _
      · by_contra hdigit
        rw [not_isWhitespace_of_isDigit (by simpa using hdigit)] at hc
        exact absurd hc (by decide)
      · rintro rfl
        exact absurd hc (by decide)

section Loops

variable {n : ℕ} {current w rest : List Char} {v : Unknown}

/-- What is trimmed between a value and the character that follows it. -/
theorem trimStart_to {c : Char} (hc : isWhitespace c = false) (hw : AllWs w) :
    trimStart (w ++ c :: rest) = c :: rest := by
  rw [trimStart_append hw, trimStart_cons hc]

/-- An item with a closing bracket behind it. -/
theorem parseArrayLoop_last (hw : AllWs w)
    (h : parseValue f64 n current = .ok (v, w ++ ']' :: rest)) (out : List Unknown) :
    parseArrayLoop f64 (n + 1) out current = .ok (.array (out ++ [v]), rest) := by
  rw [parseArrayLoop, h]
  simp only [bind, Except.bind, trimStart_to (c := ']') rfl hw]

/-- An item with a comma behind it. -/
theorem parseArrayLoop_next (hw : AllWs w)
    (h : parseValue f64 n current = .ok (v, w ++ ',' :: rest)) (out : List Unknown) :
    parseArrayLoop f64 (n + 1) out current
      = parseArrayLoop f64 n (out ++ [v]) (trimStart rest) := by
  rw [parseArrayLoop, h]
  simp only [bind, Except.bind, trimStart_to (c := ',') rfl hw]

theorem parseObjectLoop_last {key : String} (hw : AllWs w)
    (h : parseMember (parseValue f64 n) current = .ok ((key, v), w ++ '\x7d' :: rest))
    (map : List (String × Unknown)) :
    parseObjectLoop f64 (n + 1) map current = .ok (.object (Assoc.insert key v map), rest) := by
  rw [parseObjectLoop, h]
  simp only [bind, Except.bind, trimStart_to (c := '\x7d') rfl hw]

theorem parseObjectLoop_next {key : String} (hw : AllWs w)
    (h : parseMember (parseValue f64 n) current = .ok ((key, v), w ++ ',' :: rest))
    (map : List (String × Unknown)) :
    parseObjectLoop f64 (n + 1) map current
      = parseObjectLoop f64 n (Assoc.insert key v map) (trimStart rest) := by
  rw [parseObjectLoop, h]
  simp only [bind, Except.bind, trimStart_to (c := ',') rfl hw]

/-- The part of a member before its value. -/
theorem parseMember_key {w' body key : List Char} (hk : Body (relaxed f64) body key)
    (hw : AllWs w) (hw' : AllWs w') :
    parseMember (parseValue f64 n) (trimStart (w ++ '"' :: (body ++ '"' :: (w' ++ ':' :: rest))))
      = (parseValue f64 n rest).map fun r => ((String.ofList key, r.1), r.2) := by
  rw [trimStart_to rfl hw, parseMember, parseString, parseStringLoop_body hk]
  simp only [bind, Except.bind, trimStart_to (c := ':') rfl hw', parseValue_trimStart,
    List.nil_append]
  cases parseValue f64 n rest <;> rfl

theorem parseArray_empty (loop : List Unknown → List Char → Outcome (Unknown × List Char))
    (hw : AllWs w) : parseArray loop ('[' :: (w ++ ']' :: rest)) = .ok (.array [], rest) := by
  simp only [parseArray, trimStart_to (c := ']') rfl hw]

theorem parseObject_empty
    (loop : List (String × Unknown) → List Char → Outcome (Unknown × List Char))
    (hw : AllWs w) :
    parseObject loop ('\x7b' :: (w ++ '\x7d' :: rest)) = .ok (.object [], rest) := by
  simp only [parseObject, trimStart_to (c := '\x7d') rfl hw]

/-- An array that is not closed at once goes to the loop. -/
theorem parseArray_loop {loop : List Unknown → List Char → Outcome (Unknown × List Char)}
    {c : Char} {cs ds : List Char} (h : trimStart cs = c :: ds) (hc : Opens c) :
    parseArray loop ('[' :: cs) = loop [] (trimStart cs) := by
  rw [parseArray, h]
  split
  · rename_i heq
    exact absurd (List.cons.inj heq).1 hc.2.1
  · rfl

theorem parseObject_loop
    {loop : List (String × Unknown) → List Char → Outcome (Unknown × List Char)}
    {c : Char} {cs ds : List Char} (h : trimStart cs = c :: ds) (hc : Opens c) :
    parseObject loop ('\x7b' :: cs) = loop [] (trimStart cs) := by
  rw [parseObject, h]
  split
  · rename_i heq
    exact absurd (List.cons.inj heq).1 hc.2.2
  · rfl

end Loops

theorem Derives.reads {text : List Char} {sem : Sem} (h : Derives (relaxed f64) text sem) :
    Reads f64 text sem := by
  -- over the derivation; the text in front of any rest that cannot continue it is read with any
  -- fuel above its length
  induction h with
  | null | true_ | false_ =>
      intro n rest hn _
      obtain ⟨n, rfl⟩ := Nat.exists_eq_succ_of_ne_zero (n := n) (by omega)
      rfl
  | number h =>
      intro n rest hn hr
      obtain ⟨n, rfl⟩ := Nat.exists_eq_succ_of_ne_zero (n := n) (by omega)
      have hread := parseNumber_complete h hr
      obtain ⟨c, cs, rfl, hc⟩ := relaxed_readable.number h
      rw [List.cons_append, parseValue_number hc]
      exact hread
  | string h =>
      intro n rest hn _
      obtain ⟨n, rfl⟩ := Nat.exists_eq_succ_of_ne_zero (n := n) (by omega)
      rw [List.cons_append, parseValue_string, List.append_assoc]
      exact parseStringLoop_body h [] rest
  | emptyArray hw =>
      intro n rest hn _
      obtain ⟨n, rfl⟩ := Nat.exists_eq_succ_of_ne_zero (n := n) (by omega)
      rw [List.cons_append, List.append_assoc, parseValue_array]
      exact parseArray_empty _ hw
  | array h ih =>
      intro n rest hn _
      obtain ⟨n, rfl⟩ := Nat.exists_eq_succ_of_ne_zero (n := n) (by omega)
      rw [List.cons_append, List.append_assoc, List.singleton_append, parseValue_array]
      obtain ⟨c, cs, htrim, hc⟩ := h.begins relaxed_readable (']' :: rest)
      rw [parseArray_loop htrim hc]
      exact ih n [] rest (by simp at hn; omega)
  | emptyObject hw =>
      intro n rest hn _
      obtain ⟨n, rfl⟩ := Nat.exists_eq_succ_of_ne_zero (n := n) (by omega)
      rw [List.cons_append, List.append_assoc, parseValue_object]
      exact parseObject_empty _ hw
  | object h ih =>
      intro n rest hn _
      obtain ⟨n, rfl⟩ := Nat.exists_eq_succ_of_ne_zero (n := n) (by omega)
      rw [List.cons_append, List.append_assoc, List.singleton_append, parseValue_object]
      obtain ⟨c, cs, htrim, hc⟩ := h.begins relaxed_readable ('\x7d' :: rest)
      rw [parseObject_loop htrim hc]
      exact ih n [] rest (by simp at hn; omega)
  | @element w text w' v hw _ hw' ih =>
      intro n rest hn hr
      refine ⟨w', hw', ?_⟩
      rw [List.append_assoc, parseValue_append hw, List.append_assoc]
      exact ih n (w' ++ rest) (by simp at hn; omega) (hr.append hw')
  | lastItem _ ih =>
      intro n out rest hn
      obtain ⟨n, rfl⟩ := Nat.exists_eq_succ_of_ne_zero (n := n) (by omega)
      -- after the last item comes the bracket, which ends a number
      obtain ⟨w, hw, hread⟩ := ih n (']' :: rest) (by omega) (follow_cons rfl (by decide) rest)
      exact parseArrayLoop_last hw (by rw [parseValue_trimStart, hread]) out
  | @nextItem text tail v vs _ _ ih iht =>
      intro n out rest hn
      obtain ⟨n, rfl⟩ := Nat.exists_eq_succ_of_ne_zero (n := n) (by omega)
      simp only [List.length_append, List.length_cons] at hn
      obtain ⟨w, hw, hread⟩ := ih n (',' :: (tail ++ ']' :: rest)) (by omega)
        (follow_cons rfl (by decide) _)
      rw [List.append_assoc, List.cons_append,
        parseArrayLoop_next hw (by rw [parseValue_trimStart, hread]), iht n _ rest (by omega),
        List.append_assoc, List.singleton_append]
  | @member w body key w' text v hw hk hw' _ ih =>
      intro n rest hn hr
      simp only [List.length_append, List.length_cons] at hn
      obtain ⟨w'', hw'', hread⟩ := ih n rest (by omega) hr
      refine ⟨w'', hw'', ?_⟩
      rw [List.append_assoc, List.cons_append, List.append_assoc, List.cons_append,
        List.append_assoc, List.cons_append, parseMember_key hk hw hw', hread]
      rfl
  | lastMember _ ih =>
      intro n map rest hn
      obtain ⟨n, rfl⟩ := Nat.exists_eq_succ_of_ne_zero (n := n) (by omega)
      obtain ⟨w, hw, hread⟩ := ih n ('\x7d' :: rest) (by omega) (follow_cons rfl (by decide) rest)
      exact parseObjectLoop_last hw hread map
  | @nextMember text tail key v kvs _ _ ih iht =>
      intro n map rest hn
      obtain ⟨n, rfl⟩ := Nat.exists_eq_succ_of_ne_zero (n := n) (by omega)
      simp only [List.length_append, List.length_cons] at hn
      obtain ⟨w, hw, hread⟩ := ih n (',' :: (tail ++ '\x7d' :: rest)) (by omega)
        (follow_cons rfl (by decide) _)
      rw [List.append_assoc, List.cons_append, parseObjectLoop_next hw hread,
        iht n _ rest (by omega), List.foldl_cons]

/-! ## Soundness -/

/-- Everything but a value may have whitespace before it. -/
def Sem.Padded : Sem → Prop
  | .value _ => False
  | _ => True

theorem Derives.padded {d : Dialect} {w text : List Char} {sem : Sem} (hw : d.Ws w)
    (h : Derives d text sem) (hsem : sem.Padded) : Derives d (w ++ text) sem := by
  have happ : ∀ {w' : List Char}, d.Ws w' → d.Ws (w ++ w') := by
    intro w' hw' c hc
    rcases List.mem_append.mp hc with hc | hc
    · exact hw c hc
    · exact hw' c hc
  induction h with
  | null | true_ | false_ | string _ | emptyArray _ | array _ _ | emptyObject _ | object _ _
  | number _ => exact absurd hsem id
  | element hw' h hw'' _ =>
      rw [← List.append_assoc]
      exact .element (happ hw') h hw''
  | lastItem _ ih => exact .lastItem (ih trivial)
  | nextItem _ t ih _ =>
      rw [← List.append_assoc]
      exact .nextItem (ih trivial) t
  | member hw' hk hw'' h _ =>
      rw [← List.append_assoc]
      exact .member (happ hw') hk hw'' h
  | lastMember _ ih => exact .lastMember (ih trivial)
  | nextMember _ t ih _ =>
      rw [← List.append_assoc]
      exact .nextMember (ih trivial) t

theorem Derives.element_trailing {d : Dialect} {text w : List Char} {v : Unknown}
    (h : Derives d text (.element v)) (hw : d.Ws w) : Derives d (text ++ w) (.element v) := by
  cases h with
  | element hw' h hw'' =>
      rw [List.append_assoc, List.append_assoc]
      refine .element hw' h fun c hc => ?_
      rcases List.mem_append.mp hc with hc | hc
      · exact hw'' c hc
      · exact hw c hc

theorem Derives.member_trailing {d : Dialect} {text w : List Char} {key : String} {v : Unknown}
    (h : Derives d text (.member key v)) (hw : d.Ws w) :
    Derives d (text ++ w) (.member key v) := by
  cases h with
  | member hw' hk hw'' h =>
      simp only [List.append_assoc, List.cons_append]
      exact .member hw' hk hw'' (h.element_trailing hw)

/-- What is accepted where a value is expected. -/
def ValueSound (f64 : List Char → Float) (parse : List Char → Outcome (Unknown × List Char)) :
    Prop :=
  ∀ cs v rest, parse cs = .ok (v, rest) →
    ∃ text, trimStart cs = text ++ rest ∧ Derives (relaxed f64) text (.value v)

/-- What is accepted by the loop of an array. -/
def ItemsSound (f64 : List Char → Float)
    (loop : List Unknown → List Char → Outcome (Unknown × List Char)) : Prop :=
  ∀ out cs r rest, loop out cs = .ok (r, rest) →
    ∃ vs text, cs = text ++ ']' :: rest ∧ Derives (relaxed f64) text (.items vs) ∧
      r = .array (out ++ vs)

/-- What is accepted by the loop of an object. -/
def MembersSound (f64 : List Char → Float)
    (loop : List (String × Unknown) → List Char → Outcome (Unknown × List Char)) : Prop :=
  ∀ map cs r rest, loop map cs = .ok (r, rest) →
    ∃ kvs text, cs = text ++ '\x7d' :: rest ∧ Derives (relaxed f64) text (.members kvs) ∧
      r = .object (kvs.foldl (fun m p => Assoc.insert p.1 p.2 m) map)

theorem parseNull_sound {cs rest : List Char} {v : Unknown} (h : parseNull cs = .ok (v, rest)) :
    ∃ text, cs = text ++ rest ∧ Derives (relaxed f64) text (.value v) := by
  unfold parseNull at h
  split at h
  · obtain ⟨rfl, rfl⟩ := Prod.mk.inj (Except.ok.inj h)
    exact ⟨_, rfl, .null⟩
  · exact absurd h (by simp)

theorem parseBool_sound {cs rest : List Char} {v : Unknown} (h : parseBool cs = .ok (v, rest)) :
    ∃ text, cs = text ++ rest ∧ Derives (relaxed f64) text (.value v) := by
  unfold parseBool at h
  split at h
  · obtain ⟨rfl, rfl⟩ := Prod.mk.inj (Except.ok.inj h)
    exact ⟨_, rfl, .true_⟩
  · obtain ⟨rfl, rfl⟩ := Prod.mk.inj (Except.ok.inj h)
    exact ⟨_, rfl, .false_⟩
  · exact absurd h (by simp)

theorem parseString_sound (f64 : List Char → Float) {cs rest : List Char} {v : Unknown}
    (h : parseString cs = .ok (v, rest)) :
    ∃ body ds, cs = '"' :: (body ++ '"' :: rest) ∧ Body (relaxed f64) body ds ∧
      v = .string (String.ofList ds) := by
  unfold parseString at h
  split at h
  · obtain ⟨body, ds, hcs, hbody, hv⟩ := parseStringLoop_sound f64 h
    exact ⟨body, ds, congrArg _ hcs, hbody, hv⟩
  · exact absurd h (by simp)

theorem parseArray_sound {loop : List Unknown → List Char → Outcome (Unknown × List Char)}
    (hloop : ItemsSound f64 loop) {cs rest : List Char} {v : Unknown}
    (h : parseArray loop cs = .ok (v, rest)) :
    ∃ text, cs = text ++ rest ∧ Derives (relaxed f64) text (.value v) := by
  unfold parseArray at h
  split at h
  · rename_i cs
    obtain ⟨w, hw, hcs⟩ := exists_trimmed cs
    split at h
    · rename_i tail htail
      obtain ⟨rfl, rfl⟩ := Prod.mk.inj (Except.ok.inj h)
      refine ⟨_, ?_, .emptyArray hw⟩
      rw [hcs, htail]
      simp
    · rename_i current _
      obtain ⟨vs, text, htrim, hitems, rfl⟩ := hloop _ _ _ _ h
      refine ⟨_, ?_, .array (hitems.padded hw trivial)⟩
      rw [hcs, htrim]
      simp
  · exact absurd h (by simp)

theorem parseObject_sound
    {loop : List (String × Unknown) → List Char → Outcome (Unknown × List Char)}
    (hloop : MembersSound f64 loop) {cs rest : List Char} {v : Unknown}
    (h : parseObject loop cs = .ok (v, rest)) :
    ∃ text, cs = text ++ rest ∧ Derives (relaxed f64) text (.value v) := by
  unfold parseObject at h
  split at h
  · rename_i cs
    obtain ⟨w, hw, hcs⟩ := exists_trimmed cs
    split at h
    · rename_i tail htail
      obtain ⟨rfl, rfl⟩ := Prod.mk.inj (Except.ok.inj h)
      refine ⟨_, ?_, .emptyObject hw⟩
      rw [hcs, htail]
      simp
    · rename_i current _
      obtain ⟨kvs, text, htrim, hmembers, rfl⟩ := hloop _ _ _ _ h
      refine ⟨_, ?_, .object (hmembers.padded hw trivial)⟩
      rw [hcs, htrim]
      simp
  · exact absurd h (by simp)

/-- A value after trimming is an element with its whitespace. -/
theorem ValueSound.element {parse : List Char → Outcome (Unknown × List Char)}
    (hparse : ValueSound f64 parse) {cs rest : List Char} {v : Unknown}
    (h : parse cs = .ok (v, rest)) :
    ∃ text, cs = text ++ rest ∧ Derives (relaxed f64) text (.element v) := by
  obtain ⟨text, htrim, hv⟩ := hparse cs v rest h
  obtain ⟨w, hw, hcs⟩ := exists_trimmed cs
  refine ⟨w ++ (text ++ []), ?_, .element hw hv fun c hc => absurd hc (by simp)⟩
  rw [List.append_nil, List.append_assoc, ← htrim, ← hcs]

theorem parseMember_sound {value : List Char → Outcome (Unknown × List Char)}
    (hvalue : ValueSound f64 value) {cs after : List Char} {key : String} {v : Unknown}
    (h : parseMember value cs = .ok ((key, v), after)) :
    ∃ text, cs = text ++ after ∧ Derives (relaxed f64) text (.member key v) := by
  rw [parseMember] at h
  obtain ⟨⟨r, afterKey⟩, hkey, h⟩ := Outcome.bind_eq_ok.mp h
  obtain ⟨body, ds, rfl, hbody, rfl⟩ := parseString_sound f64 hkey
  dsimp only at h
  split at h
  · rename_i tail htail
    obtain ⟨⟨v', after'⟩, hv, heq⟩ := Outcome.bind_eq_ok.mp h
    obtain ⟨hpair, rfl⟩ := Prod.mk.inj (Except.ok.inj heq)
    obtain ⟨rfl, rfl⟩ := Prod.mk.inj hpair
    obtain ⟨text, htext, helement⟩ := hvalue.element hv
    -- whitespace before the colon, and after it
    obtain ⟨w, hw, hafter⟩ := exists_trimmed afterKey
    obtain ⟨w', hw', htail'⟩ := exists_trimmed tail
    have hnil : (relaxed f64).Ws [] := fun c hc => absurd hc (by simp)
    refine ⟨_, ?_, .member hnil hbody hw (helement.padded hw' trivial)⟩
    rw [hafter, htail, htail', htext]
    simp
  · exact absurd h (by simp)

theorem parseArrayLoop_sound {n : ℕ} (hvalue : ValueSound f64 (parseValue f64 n))
    (hloop : ItemsSound f64 (parseArrayLoop f64 n)) :
    ItemsSound f64 (parseArrayLoop f64 (n + 1)) := by
  intro out cs r rest h
  rw [parseArrayLoop] at h
  obtain ⟨⟨item, after⟩, hitem, hmatch⟩ := Outcome.bind_eq_ok.mp h
  obtain ⟨text, rfl, helement⟩ := hvalue.element hitem
  obtain ⟨w, hw, hafter⟩ := exists_trimmed after
  dsimp only at hmatch
  split at hmatch
  · rename_i tail htail
    obtain ⟨rfl, rfl⟩ := Prod.mk.inj (Except.ok.inj hmatch)
    refine ⟨[item], text ++ w, ?_, .lastItem (helement.element_trailing hw), rfl⟩
    rw [hafter, htail, List.append_assoc]
  · rename_i tail htail
    obtain ⟨vs, text', htrim, hitems, rfl⟩ := hloop _ _ _ _ hmatch
    obtain ⟨w', hw', htail'⟩ := exists_trimmed tail
    refine ⟨item :: vs, _, ?_,
      .nextItem (helement.element_trailing hw) (hitems.padded hw' trivial), by simp⟩
    rw [hafter, htail, htail', htrim]
    simp
  · exact absurd hmatch (by simp)

theorem parseObjectLoop_sound {n : ℕ} (hvalue : ValueSound f64 (parseValue f64 n))
    (hloop : MembersSound f64 (parseObjectLoop f64 n)) :
    MembersSound f64 (parseObjectLoop f64 (n + 1)) := by
  intro map cs r rest h
  rw [parseObjectLoop] at h
  obtain ⟨⟨⟨key, v⟩, after⟩, hmember, hmatch⟩ := Outcome.bind_eq_ok.mp h
  obtain ⟨text, rfl, hmem⟩ := parseMember_sound hvalue hmember
  obtain ⟨w, hw, hafter⟩ := exists_trimmed after
  dsimp only at hmatch
  split at hmatch
  · rename_i tail htail
    obtain ⟨rfl, rfl⟩ := Prod.mk.inj (Except.ok.inj hmatch)
    refine ⟨[(key, v)], text ++ w, ?_, .lastMember (hmem.member_trailing hw), rfl⟩
    rw [hafter, htail, List.append_assoc]
  · rename_i tail htail
    obtain ⟨kvs, text', htrim, hmembers, rfl⟩ := hloop _ _ _ _ hmatch
    obtain ⟨w', hw', htail'⟩ := exists_trimmed tail
    refine ⟨(key, v) :: kvs, _, ?_,
      .nextMember (hmem.member_trailing hw) (hmembers.padded hw' trivial), rfl⟩
    rw [hafter, htail, htail', htrim]
    simp
  · exact absurd hmatch (by simp)

theorem parseValue_sound {n : ℕ} (hitems : ItemsSound f64 (parseArrayLoop f64 n))
    (hmembers : MembersSound f64 (parseObjectLoop f64 n)) :
    ValueSound f64 (parseValue f64 (n + 1)) := by
  intro cs v rest h
  rw [parseValue] at h
  cases htrim : trimStart cs with
  | nil =>
      rw [htrim] at h
      exact absurd h (by simp)
  | cons c ds =>
      rw [htrim] at h
      dsimp only at h
      split_ifs at h
      · obtain ⟨body, es, hcs, hbody, rfl⟩ := parseString_sound f64 h
        refine ⟨_, ?_, .string hbody⟩
        rw [hcs]
        simp
      · exact parseObject_sound hmembers h
      · exact parseArray_sound hitems h
      · exact parseBool_sound h
      · exact parseNull_sound h
      · obtain ⟨text, hcs, hnumber⟩ := parseNumber_sound h
        exact ⟨text, hcs, .number hnumber⟩

/-- Whatever is accepted, with whatever fuel, is a text of the relaxed dialect. -/
theorem parse_sound (n : ℕ) :
    ValueSound f64 (parseValue f64 n) ∧ ItemsSound f64 (parseArrayLoop f64 n) ∧
      MembersSound f64 (parseObjectLoop f64 n) := by
  induction n with
  | zero =>
      refine ⟨fun _ _ _ h => ?_, fun _ _ _ _ h => ?_, fun _ _ _ _ h => ?_⟩
      · exact absurd h (by simp [parseValue])
      · exact absurd h (by simp [parseArrayLoop])
      · exact absurd h (by simp [parseObjectLoop])
  | succ n ih =>
      obtain ⟨hvalue, hitems, hmembers⟩ := ih
      exact ⟨parseValue_sound hitems hmembers, parseArrayLoop_sound hvalue hitems,
        parseObjectLoop_sound hvalue hmembers⟩

/-! ## Unicode escapes and exponents -/

/-- Nothing is accepted. -/
def Fails {X : Type} (r : Outcome X) : Prop := ∀ x, r ≠ .ok x

/-- Whatever is accepted stops at the letter of an exponent, where nothing can go on. -/
def StopsAtExp {X : Type} (r : Outcome (X × List Char)) : Prop :=
  ∀ x rest, r = .ok (x, rest) → ∃ e cs, rest = e :: cs ∧ (e = 'e' ∨ e = 'E')

theorem Fails.stopsAtExp {X : Type} {r : Outcome (X × List Char)} (h : Fails r) : StopsAtExp r :=
  fun _ _ hr => absurd hr (h _)

/-- How the parser fails on a text of each kind, whatever follows it. -/
def Rejects (f64 : List Char → Float) (text : List Char) : Sem → Prop
  | .value _ => ∀ n rest, 2 * text.length + 1 ≤ n → StopsAtExp (parseValue f64 n (text ++ rest))
  | .element _ => ∀ n rest, 2 * text.length + 1 ≤ n → StopsAtExp (parseValue f64 n (text ++ rest))
  | .items _ => ∀ n out rest, 2 * text.length + 2 ≤ n →
      Fails (parseArrayLoop f64 n out (trimStart (text ++ rest)))
  | .member _ _ => ∀ n rest, 2 * text.length + 1 ≤ n →
      StopsAtExp (parseMember (parseValue f64 n) (trimStart (text ++ rest)))
  | .members _ => ∀ n map rest, 2 * text.length + 2 ≤ n →
      Fails (parseObjectLoop f64 n map (trimStart (text ++ rest)))

theorem parseStringLoop_unicode (out rest : List Char) :
    Fails (parseStringLoop out false ('\\' :: 'u' :: rest)) := by
  intro x h
  rw [parseStringLoop, if_pos rfl, parseStringLoop, if_pos rfl, unicodeEscape_u] at h
  exact absurd h (by simp [bind, Except.bind])

/-- A string of JSON has no unicode escape, or it is not accepted. -/
theorem Body.plain_or_fails {body cs : List Char} (h : Body (rfc f64) body cs) :
    Body (plain f64) body cs ∨ ∀ out rest, Fails (parseStringLoop out false (body ++ rest)) := by
  induction h with
  | nil => exact .inl .nil
  | @cons text tail cs c hd _ ih =>
      cases hd with
      | plain hp =>
          rcases ih with ih | ih
          · exact .inl (.cons hp ih)
          · refine .inr fun out rest => ?_
            rw [List.append_assoc, parseStringLoop_piece ((plain_le_relaxed f64).piece hp)]
            exact ih _ rest
      | unicode _ _ => exact .inr fun out rest => parseStringLoop_unicode out _
      | surrogates _ _ _ _ _ => exact .inr fun out rest => parseStringLoop_unicode out _

theorem ExpPart.exists_cons {exp : List Char} (h : ExpPart exp) :
    ∃ e cs, exp = e :: cs ∧ (e = 'e' ∨ e = 'E') := by
  obtain ⟨e, sign, digits, he, _, _, rfl⟩ := h
  exact ⟨e, sign ++ digits, rfl, he⟩

theorem ExpPart.follow {exp : List Char} (h : ExpPart exp) (rest : List Char) :
    Follow (exp ++ rest) := by
  obtain ⟨e, cs, rfl, rfl | rfl⟩ := h.exists_cons
  · exact follow_cons rfl (by decide) _
  · exact follow_cons rfl (by decide) _

/-- A number of JSON has no exponent, or the parser stops in front of it. -/
theorem RfcNumber.plain_or_stops {text : List Char} {v : Unknown} (h : RfcNumber f64 text v) :
    PlainNumber f64 text v ∨ ∀ rest, StopsAtExp (parseNumber f64 (text ++ rest)) := by
  cases h with
  | plain h => exact .inl h
  | @exp neg digits fraction exp hint hf he =>
      refine .inr fun rest x after h => ?_
      have hafter : after = exp ++ rest := by
        rw [List.append_assoc, List.append_assoc, parseNumber_minus hint.1] at h
        rcases hf with rfl | ⟨ds, hds, rfl⟩
        · rw [List.nil_append, parseUnsigned_int hint.1 (he.follow rest)] at h
          split at h
          · exact absurd h (by simp)
          · exact (Prod.mk.inj (Except.ok.inj h)).2.symm
        · rw [List.cons_append, parseUnsigned_frac hint.1 hds.2 (he.follow rest).1] at h
          exact (Prod.mk.inj (Except.ok.inj h)).2.symm
      obtain ⟨e, cs, rfl, hletter⟩ := he.exists_cons
      exact ⟨e, cs ++ rest, hafter, hletter⟩

theorem rfc_readable : (rfc f64).Readable where
  ws := (plain_le_relaxed f64).ws
  number := by
    intro text v h
    cases h with
    | plain h => exact relaxed_readable.number ((plain_le_relaxed f64).number h)
    | @exp neg digits fraction exp hint _ _ =>
        cases neg with
        | true => exact ⟨'-', digits ++ fraction ++ exp, rfl, .inl rfl⟩
        | false =>
            obtain ⟨c, cs, rfl⟩ := List.exists_cons_of_ne_nil hint.1.1
            exact ⟨c, cs ++ fraction ++ exp, rfl, .inr (hint.1.2 c (List.mem_cons_self ..))⟩

theorem StopsAtExp.trimStart {X : Type} {r : Outcome (X × List Char)} (h : StopsAtExp r) {x : X}
    {rest : List Char} (hr : r = .ok (x, rest)) :
    ∃ e cs, trimStart rest = e :: cs ∧ (e = 'e' ∨ e = 'E') := by
  obtain ⟨e, cs, rfl, he⟩ := h x rest hr
  refine ⟨e, cs, trimStart_cons ?_ cs, he⟩
  rcases he with rfl | rfl <;> rfl

/-- Behind the letter of an exponent the loops do not go on. -/
theorem StopsAtExp.arrayLoop {n : ℕ} {cs : List Char} (h : StopsAtExp (parseValue f64 n cs))
    (out : List Unknown) : Fails (parseArrayLoop f64 (n + 1) out cs) := by
  intro x hx
  rw [parseArrayLoop] at hx
  obtain ⟨⟨item, after⟩, hitem, hmatch⟩ := Outcome.bind_eq_ok.mp hx
  obtain ⟨e, ds, htrim, rfl | rfl⟩ := h.trimStart hitem
  · simp [htrim] at hmatch
  · simp [htrim] at hmatch

theorem StopsAtExp.objectLoop {n : ℕ} {cs : List Char}
    (h : StopsAtExp (parseMember (parseValue f64 n) cs)) (map : List (String × Unknown)) :
    Fails (parseObjectLoop f64 (n + 1) map cs) := by
  intro x hx
  rw [parseObjectLoop] at hx
  obtain ⟨⟨⟨key, v⟩, after⟩, hmember, hmatch⟩ := Outcome.bind_eq_ok.mp hx
  obtain ⟨e, ds, htrim, rfl | rfl⟩ := h.trimStart hmember
  · simp [htrim] at hmatch
  · simp [htrim] at hmatch

/-- A member stops where its value does. -/
theorem parseMember_stops {n : ℕ} {w body key w' rest : List Char}
    (h : StopsAtExp (parseValue f64 n rest)) (hk : Body (relaxed f64) body key) (hw : AllWs w)
    (hw' : AllWs w') :
    StopsAtExp (parseMember (parseValue f64 n)
      (trimStart (w ++ '"' :: (body ++ '"' :: (w' ++ ':' :: rest))))) := by
  intro x after hx
  rw [parseMember_key hk hw hw'] at hx
  cases hvalue : parseValue f64 n rest with
  | error e => exact absurd hx (by simp [hvalue, Except.map])
  | ok r =>
      rw [hvalue] at hx
      obtain ⟨_, rfl⟩ := Prod.mk.inj (Except.ok.inj hx)
      exact h r.1 r.2 hvalue

/-- A key with a unicode escape ends the loop of an object. -/
theorem parseMember_fails {n : ℕ} {w body rest : List Char} (hw : AllWs w)
    (h : ∀ out tail, Fails (parseStringLoop out false (body ++ tail))) :
    Fails (parseMember (parseValue f64 n) (trimStart (w ++ '"' :: (body ++ rest)))) := by
  intro x hx
  rw [trimStart_to rfl hw, parseMember] at hx
  obtain ⟨r, hkey, _⟩ := Outcome.bind_eq_ok.mp hx
  exact h [] rest r hkey

/-- **On the texts of JSON** the parser reads those without unicode escapes and exponents, and fails
    on all others. -/
theorem Derives.plain_or_rejects {text : List Char} {sem : Sem} (h : Derives (rfc f64) text sem) :
    Derives (plain f64) text sem ∨ Rejects f64 text sem := by
  -- the first part that is not plain decides; up to it the parser reads as it should
  induction h with
  | null => exact .inl .null
  | true_ => exact .inl .true_
  | false_ => exact .inl .false_
  | number h =>
      rcases h.plain_or_stops with hplain | hstops
      · exact .inl (.number hplain)
      · obtain ⟨c, cs, rfl, hc⟩ := rfc_readable.number h
        refine .inr fun n rest hn => ?_
        obtain ⟨n, rfl⟩ := Nat.exists_eq_succ_of_ne_zero (n := n) (by omega)
        rw [List.cons_append, parseValue_number hc]
        exact hstops rest
  | string h =>
      rcases h.plain_or_fails with hplain | hfails
      · exact .inl (.string hplain)
      · refine .inr fun n rest hn => Fails.stopsAtExp ?_
        obtain ⟨n, rfl⟩ := Nat.exists_eq_succ_of_ne_zero (n := n) (by omega)
        rw [List.cons_append, parseValue_string, List.append_assoc]
        exact hfails [] _
  | emptyArray hw => exact .inl (.emptyArray hw)
  | array h ih =>
      rcases ih with hplain | hrej
      · exact .inl (.array hplain)
      · refine .inr fun n rest hn => Fails.stopsAtExp ?_
        obtain ⟨n, rfl⟩ := Nat.exists_eq_succ_of_ne_zero (n := n) (by omega)
        rw [List.cons_append, List.append_assoc, parseValue_array]
        obtain ⟨c, cs, htrim, hc⟩ := h.begins rfc_readable ([']'] ++ rest)
        rw [parseArray_loop htrim hc]
        exact hrej n [] _ (by simp at hn; omega)
  | emptyObject hw => exact .inl (.emptyObject hw)
  | object h ih =>
      rcases ih with hplain | hrej
      · exact .inl (.object hplain)
      · refine .inr fun n rest hn => Fails.stopsAtExp ?_
        obtain ⟨n, rfl⟩ := Nat.exists_eq_succ_of_ne_zero (n := n) (by omega)
        rw [List.cons_append, List.append_assoc, parseValue_object]
        obtain ⟨c, cs, htrim, hc⟩ := h.begins rfc_readable (['\x7d'] ++ rest)
        rw [parseObject_loop htrim hc]
        exact hrej n [] _ (by simp at hn; omega)
  | element hw _ hw' ih =>
      rcases ih with hplain | hrej
      · exact .inl (.element hw hplain hw')
      · refine .inr fun n rest hn => ?_
        rw [List.append_assoc, parseValue_append (hw.allWs rfc_readable), List.append_assoc]
        exact hrej n _ (by simp at hn; omega)
  | lastItem _ ih =>
      rcases ih with hplain | hrej
      · exact .inl (.lastItem hplain)
      · refine .inr fun n out rest hn => ?_
        obtain ⟨n, rfl⟩ := Nat.exists_eq_succ_of_ne_zero (n := n) (by omega)
        refine StopsAtExp.arrayLoop ?_ out
        rw [parseValue_trimStart]
        exact hrej n rest (by omega)
  | @nextItem text tail v vs _ _ ih iht =>
      rcases ih with hplain | hrej
      · rcases iht with hplain' | hrej
        · exact .inl (.nextItem hplain hplain')
        -- the first item is read, and the loop goes on to the others
        · refine .inr fun n out rest hn => ?_
          obtain ⟨n, rfl⟩ := Nat.exists_eq_succ_of_ne_zero (n := n) (by omega)
          simp only [List.length_append, List.length_cons] at hn
          obtain ⟨w, hw, hread⟩ := (hplain.mono (plain_le_relaxed f64)).reads n
            (',' :: (tail ++ rest)) (by omega) (follow_cons rfl (by decide) _)
          rw [List.append_assoc, List.cons_append,
            parseArrayLoop_next hw (by rw [parseValue_trimStart, hread])]
          exact hrej n _ rest (by omega)
      · refine .inr fun n out rest hn => ?_
        obtain ⟨n, rfl⟩ := Nat.exists_eq_succ_of_ne_zero (n := n) (by omega)
        simp only [List.length_append, List.length_cons] at hn
        refine StopsAtExp.arrayLoop ?_ out
        rw [parseValue_trimStart, List.append_assoc]
        exact hrej n _ (by omega)
  | @member w body key w' text v hw hk hw' _ ih =>
      rcases hk.plain_or_fails with hplain | hfails
      · rcases ih with hplain' | hrej
        · exact .inl (.member hw hplain hw' hplain')
        -- the key is read, so it is the value that is not
        · refine .inr fun n rest hn => ?_
          simp only [List.length_append, List.length_cons] at hn
          rw [List.append_assoc, List.cons_append, List.append_assoc, List.cons_append,
            List.append_assoc, List.cons_append]
          exact parseMember_stops (hrej n rest (by omega)) (hplain.mono (plain_le_relaxed f64))
            (hw.allWs rfc_readable) (hw'.allWs rfc_readable)
      · refine .inr fun n rest hn => Fails.stopsAtExp ?_
        rw [List.append_assoc, List.cons_append, List.append_assoc]
        exact parseMember_fails (hw.allWs rfc_readable) hfails
  | lastMember _ ih =>
      rcases ih with hplain | hrej
      · exact .inl (.lastMember hplain)
      · refine .inr fun n map rest hn => ?_
        obtain ⟨n, rfl⟩ := Nat.exists_eq_succ_of_ne_zero (n := n) (by omega)
        exact StopsAtExp.objectLoop (hrej n rest (by omega)) map
  | @nextMember text tail key v kvs _ _ ih iht =>
      rcases ih with hplain | hrej
      · rcases iht with hplain' | hrej
        · exact .inl (.nextMember hplain hplain')
        · refine .inr fun n map rest hn => ?_
          obtain ⟨n, rfl⟩ := Nat.exists_eq_succ_of_ne_zero (n := n) (by omega)
          simp only [List.length_append, List.length_cons] at hn
          obtain ⟨w, hw, hread⟩ := (hplain.mono (plain_le_relaxed f64)).reads n
            (',' :: (tail ++ rest)) (by omega) (follow_cons rfl (by decide) _)
          rw [List.append_assoc, List.cons_append, parseObjectLoop_next hw hread]
          exact hrej n _ rest (by omega)
      · refine .inr fun n map rest hn => ?_
        obtain ⟨n, rfl⟩ := Nat.exists_eq_succ_of_ne_zero (n := n) (by omega)
        simp only [List.length_append, List.length_cons] at hn
        rw [List.append_assoc]
        exact StopsAtExp.objectLoop (hrej n _ (by omega)) map

/-! ## Documents -/

/-- **The parser reads exactly the texts of the relaxed dialect.** -/
theorem parseJsonDocument_eq_ok {s : String} {v : Unknown} :
    parseJsonDocument f64 s = .ok v ↔ (relaxed f64).Text s v := by
  rw [parseJsonDocument, parseJsonValue, parseValue_trimStart, Outcome.bind_eq_ok]
  constructor
  · rintro ⟨⟨r, rest⟩, hread, hrest⟩
    dsimp only at hrest
    split_ifs at hrest with hws
    obtain rfl := Except.ok.inj hrest
    obtain ⟨text, hs, helement⟩ := ValueSound.element (parse_sound _).1 hread
    rw [Dialect.Text, hs]
    exact helement.element_trailing fun c hc => List.all_eq_true.mp hws c hc
  · intro h
    obtain ⟨w, hw, hread⟩ := h.reads (enough s.toList) [] (by rw [enough]; omega) follow_nil
    rw [List.append_nil, List.append_nil] at hread
    refine ⟨(v, w), hread, ?_⟩
    exact if_pos (List.all_eq_true.mpr hw)

/-- A text of JSON that is not plain is rejected. -/
theorem parseJsonDocument_plain {s : String} {v v' : Unknown} (h : (rfc f64).Text s v)
    (hok : parseJsonDocument f64 s = .ok v') : (plain f64).Text s v := by
  rcases h.plain_or_rejects with hplain | hrej
  · exact hplain
  · rw [parseJsonDocument, parseJsonValue, parseValue_trimStart] at hok
    obtain ⟨⟨r, rest⟩, hread, hrest⟩ := Outcome.bind_eq_ok.mp hok
    -- a value that stops at an exponent leaves its letter behind, which is not whitespace
    have hstops := hrej (enough s.toList) [] (by rw [enough]; omega)
    rw [List.append_nil] at hstops
    obtain ⟨e, cs, rfl, he⟩ := hstops r rest hread
    have hws : (e :: cs).all isWhitespace = false := by rcases he with rfl | rfl <;> rfl
    dsimp only at hrest
    rw [hws] at hrest
    exact absurd hrest (by simp)

/-- **When the parser is a JSON parser.** On an input it accepts exactly the values that the input
    denotes as a text of JSON, if and only if these readings have no unicode escape and no exponent,
    and the input has no reading that only the relaxed dialect allows. -/
theorem parseJsonDocument_iff (f64 : List Char → Float) (s : String) :
    (∀ v, parseJsonDocument f64 s = .ok v ↔ (rfc f64).Text s v) ↔
      (∀ v, (rfc f64).Text s v → (plain f64).Text s v) ∧
        (∀ v, (relaxed f64).Text s v → (rfc f64).Text s v) := by
  constructor
  · intro h
    refine ⟨fun v hv => parseJsonDocument_plain hv ((h v).mpr hv), fun v hv => ?_⟩
    exact (h v).mp (parseJsonDocument_eq_ok.mpr hv)
  · rintro ⟨hplain, hrelaxed⟩ v
    constructor
    · exact fun h => hrelaxed v (parseJsonDocument_eq_ok.mp h)
    · exact fun h => parseJsonDocument_eq_ok.mpr ((hplain v h).mono (plain_le_relaxed f64))

/-- The string `"\u0041"` denotes the letter A, and the parser takes the letter of the escape for
    its first digit. -/
theorem parseJsonDocument_unicodeEscape :
    ¬ ∀ v, parseJsonDocument (fun _ => 0) "\"\\u0041\"" = .ok v ↔
      (rfc fun _ => 0).Text "\"\\u0041\"" v := by
  intro h
  have hpiece : RfcPiece ('\\' :: 'u' :: ['0', '0', '4', '1']) 'A' :=
    .unicode ⟨rfl, List.all_eq_true.mp rfl⟩ rfl
  have hbody : Body (rfc fun _ => 0) (('\\' :: 'u' :: ['0', '0', '4', '1']) ++ []) ['A'] :=
    .cons hpiece .nil
  have htext : (rfc fun _ => 0).Text "\"\\u0041\"" (.string (String.ofList ['A'])) :=
    @Derives.element _ [] _ [] _ (by simp [Dialect.Ws]) (.string hbody) (by simp [Dialect.Ws])
  have hfail : parseJsonDocument (fun _ => 0) "\"\\u0041\""
      = .error ⟨"", "invalid unicode escape"⟩ := rfl
  have hok := (h _).mpr htext
  rw [hfail] at hok
  exact absurd hok (by simp)

end IdEffect.Parse
