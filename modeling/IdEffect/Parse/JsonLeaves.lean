import IdEffect.Parse.JsonGrammar
import Mathlib.Data.List.TakeWhile

set_option autoImplicit false

/-! # The leaves of the JSON parser against the grammar

For whitespace, strings and numbers: what the parser does with a text of the relaxed dialect in
front of any further input, and that what it accepts is such a text. -/

namespace IdEffect.Parse

open Schema (Unknown Outcome)

/-! ## Whitespace -/

/-- Whitespace to `char::is_whitespace`. -/
def AllWs (w : List Char) : Prop := ∀ c ∈ w, isWhitespace c = true

theorem trimStart_append {w : List Char} (h : AllWs w) (cs : List Char) :
    trimStart (w ++ cs) = trimStart cs :=
  List.dropWhile_append_of_pos h

theorem trimStart_cons {c : Char} (h : isWhitespace c = false) (cs : List Char) :
    trimStart (c :: cs) = c :: cs := by
  rw [trimStart, List.dropWhile_cons_of_neg (by simp [h])]

/-- The part that is trimmed. -/
theorem exists_trimmed (cs : List Char) : ∃ w, AllWs w ∧ cs = w ++ trimStart cs := by
  refine ⟨cs.takeWhile isWhitespace, fun c hc => ?_, List.takeWhile_append_dropWhile.symm⟩
  exact List.mem_takeWhile_imp hc

theorem trimStart_trimStart (cs : List Char) : trimStart (trimStart cs) = trimStart cs := by
  obtain ⟨w, hw, hcs⟩ := exists_trimmed cs
  calc trimStart (trimStart cs) = trimStart (w ++ trimStart cs) := (trimStart_append hw _).symm
    _ = trimStart cs := by rw [← hcs]

/-! ## Strings -/

/-- The four characters that are looked at begin with the letter `u`, which is no digit. -/
theorem unicodeEscape_u (rest : List Char) :
    unicodeEscape ('u' :: rest) = .error ⟨"", "invalid unicode escape"⟩ := by
  have hall : (('u' :: rest).take 4).all isAsciiHexdigit = false := rfl
  rw [unicodeEscape, if_pos (.inr hall)]

/-- One character of a string, however it is written. -/
theorem parseStringLoop_piece {text : List Char} {c : Char} (h : RelaxedPiece text c)
    (out rest : List Char) :
    parseStringLoop out false (text ++ rest) = parseStringLoop (out ++ [c]) false rest := by
  obtain ⟨hq, hb⟩ | ⟨hu⟩ := h
  · rw [List.singleton_append, parseStringLoop, if_neg hb, if_neg hq]
  · rw [List.cons_append, List.singleton_append, parseStringLoop, if_pos rfl, parseStringLoop,
      if_neg hu]

theorem parseStringLoop_body {f64 : List Char → Float} {body cs : List Char}
    (h : Body (relaxed f64) body cs) (out rest : List Char) :
    parseStringLoop out false (body ++ '"' :: rest)
      = .ok (.string (String.ofList (out ++ cs)), rest) := by
  induction h generalizing out with
  | nil => rw [List.nil_append, parseStringLoop, if_neg (by decide), if_pos rfl, List.append_nil]
  | cons hd _ ih =>
      rw [List.append_assoc, parseStringLoop_piece hd, ih, List.append_assoc, List.singleton_append]

/-- A string that the loop accepts; after a backslash it still belongs to the next character. -/
theorem parseStringLoop_sound (f64 : List Char → Float) {out cs rest : List Char} {escaped : Bool}
    {r : Unknown} (h : parseStringLoop out escaped cs = .ok (r, rest)) :
    ∃ body ds, (if escaped then '\\' :: cs else cs) = body ++ '"' :: rest ∧
      Body (relaxed f64) body ds ∧ r = .string (String.ofList (out ++ ds)) := by
  induction cs generalizing out escaped with
  | nil => cases escaped <;> exact absurd h (by simp [parseStringLoop])
  | cons ch cs ih =>
      cases escaped with
      | true =>
          rw [parseStringLoop] at h
          split_ifs at h with hu
          -- the four digits would be read from the letter `u` on, so this is never accepted
          · rw [hu, unicodeEscape_u] at h
            exact absurd h (by simp [bind, Except.bind])
          · obtain ⟨body, ds, hcs, hbody, hr⟩ := ih h
            refine ⟨['\\', ch] ++ body, escapedChar ch :: ds, ?_, .cons (.escape hu) hbody, ?_⟩
            · rw [if_neg (by decide)] at hcs
              rw [if_pos rfl, hcs]
              rfl
            · rw [hr, List.append_assoc, List.singleton_append]
      | false =>
          rw [parseStringLoop] at h
          rw [if_neg (by decide)]
          split_ifs at h with hb hq
          -- a backslash, the closing quote, any other character
          · obtain ⟨body, ds, hcs, hbody, hr⟩ := ih h
            rw [if_pos rfl] at hcs
            exact ⟨body, ds, by rw [hb, hcs], hbody, hr⟩
          · obtain ⟨rfl, rfl⟩ := Prod.mk.inj (Except.ok.inj h)
            exact ⟨[], [], by rw [hq]; rfl, .nil, by rw [List.append_nil]⟩
          · obtain ⟨body, ds, hcs, hbody, hr⟩ := ih h
            refine ⟨[ch] ++ body, ch :: ds, ?_, .cons (.raw hq hb) hbody, ?_⟩
            · rw [if_neg (by decide)] at hcs
              rw [hcs]
              rfl
            · rw [hr, List.append_assoc, List.singleton_append]

/-! ## Numbers -/

theorem parseI64_eq_some {neg : Bool} {digits : List Char} {n : Int64} :
    parseI64 neg digits = some n ↔ n.toInt = signed neg (decimal digits) := by
  rw [parseI64]
  generalize signed neg (decimal digits) = z
  constructor
  · intro h
    split_ifs at h with hz
    rw [← Option.some.inj h]
    exact Int64.toInt_ofInt_of_le (by omega) (by omega)
  · rintro rfl
    have hlt := n.toInt_lt
    have hle := n.le_toInt
    rw [if_pos (by omega), Int64.ofInt_toInt]

/-- No digit comes next. -/
def NoDigit (rest : List Char) : Prop := ∀ c, rest.head? = some c → c.isDigit = false

/-- Neither a digit nor a decimal point comes next, so that a number ends here. -/
def Follow (rest : List Char) : Prop := NoDigit rest ∧ rest.head? ≠ some '.'

theorem span_digits {digits rest : List Char} (hd : ∀ c ∈ digits, c.isDigit = true)
    (hr : NoDigit rest) :
    (digits ++ rest).takeWhile Char.isDigit = digits ∧
      (digits ++ rest).dropWhile Char.isDigit = rest := by
  have hrest : rest.takeWhile Char.isDigit = [] ∧ rest.dropWhile Char.isDigit = rest := by
    cases rest with
    | nil => exact ⟨rfl, rfl⟩
    | cons c rest =>
        have hc : c.isDigit = false := hr c rfl
        simp [hc]
  rw [List.takeWhile_append_of_pos hd, List.dropWhile_append_of_pos hd, hrest.1, hrest.2,
    List.append_nil]
  exact ⟨rfl, rfl⟩

section

variable {f64 : List Char → Float} {neg : Bool} {digits fraction rest : List Char}

/-- An integer, if it fits. -/
theorem parseUnsigned_int (hd : Digits digits) (hr : Follow rest) :
    parseUnsigned f64 neg (digits ++ rest)
      = match parseI64 neg digits with
        | none => .error ⟨"", "invalid integer"⟩
        | some value => .ok (.i64 value, rest) := by
  obtain ⟨htake, hdrop⟩ := span_digits hd.2 hr.1
  rw [parseUnsigned, htake, hdrop, if_neg hd.1]
  split
  · exact absurd rfl hr.2
  · rfl

theorem parseUnsigned_frac (hd : Digits digits) (hf : ∀ c ∈ fraction, c.isDigit = true)
    (hr : NoDigit rest) :
    parseUnsigned f64 neg (digits ++ '.' :: (fraction ++ rest))
      = .ok (.f64 (f64 (minus neg ++ digits ++ '.' :: fraction)), rest) := by
  have hdot : NoDigit ('.' :: (fraction ++ rest)) := by
    intro c hc
    rw [← Option.some.inj hc]
    decide
  obtain ⟨htake, hdrop⟩ := span_digits hd.2 hdot
  obtain ⟨htake', hdrop'⟩ := span_digits hf hr
  rw [parseUnsigned, htake, hdrop, if_neg hd.1]
  simp only [htake', hdrop']
  rfl

end

theorem parseNumber_minus {f64 : List Char → Float} {neg : Bool} {digits rest : List Char}
    (hd : Digits digits) :
    parseNumber f64 (minus neg ++ digits ++ rest) = parseUnsigned f64 neg (digits ++ rest) := by
  cases neg with
  | true => rfl
  | false =>
      obtain ⟨c, cs, rfl⟩ := List.exists_cons_of_ne_nil hd.1
      have hc : c ≠ '-' := by
        rintro rfl
        exact absurd (hd.2 '-' (List.mem_cons_self ..)) (by decide)
      show parseNumber f64 (c :: (cs ++ rest)) = _
      rw [parseNumber.eq_2 _ _ fun body h => hc (List.cons.inj h).1]
      rfl

theorem parseNumber_complete {f64 : List Char → Float} {text rest : List Char} {v : Unknown}
    (h : RelaxedNumber f64 text v) (hr : Follow rest) :
    parseNumber f64 (text ++ rest) = .ok (v, rest) := by
  obtain ⟨hd, hn⟩ | ⟨hd, hf⟩ := h
  · rw [parseNumber_minus hd, parseUnsigned_int hd hr, parseI64_eq_some.mpr hn]
  · rw [List.append_assoc, parseNumber_minus hd, List.cons_append, parseUnsigned_frac hd hf hr.1]

theorem parseUnsigned_sound {f64 : List Char → Float} {neg : Bool} {body rest : List Char}
    {v : Unknown} (h : parseUnsigned f64 neg body = .ok (v, rest)) :
    ∃ text, minus neg ++ body = text ++ rest ∧ RelaxedNumber f64 text v := by
  have hbody : body.takeWhile Char.isDigit ++ body.dropWhile Char.isDigit = body :=
    List.takeWhile_append_dropWhile
  by_cases hnil : body.takeWhile Char.isDigit = []
  · exact absurd h (by simp [parseUnsigned, hnil])
  rw [parseUnsigned, if_neg hnil] at h
  -- digits, and then a fraction or the end of the number
  have hd : Digits (body.takeWhile Char.isDigit) := ⟨hnil, fun c hc => List.mem_takeWhile_imp hc⟩
  split at h
  · rename_i tail htail
    obtain ⟨rfl, rfl⟩ := Prod.mk.inj (Except.ok.inj h)
    refine ⟨_, ?_, .frac hd fun c hc => List.mem_takeWhile_imp hc⟩
    rw [List.append_assoc, List.cons_append, List.takeWhile_append_dropWhile, List.append_assoc,
      ← htail, hbody]
  · split at h
    · exact absurd h (by simp)
    · rename_i value hvalue
      obtain ⟨rfl, rfl⟩ := Prod.mk.inj (Except.ok.inj h)
      refine ⟨_, ?_, .int hd (parseI64_eq_some.mp hvalue)⟩
      rw [List.append_assoc, hbody]

theorem parseNumber_sound {f64 : List Char → Float} {cs rest : List Char} {v : Unknown}
    (h : parseNumber f64 cs = .ok (v, rest)) :
    ∃ text, cs = text ++ rest ∧ RelaxedNumber f64 text v := by
  unfold parseNumber at h
  split at h
  · exact parseUnsigned_sound h
  · exact parseUnsigned_sound h

end IdEffect.Parse
