set_option autoImplicit false

/-! # Serializers

A serializer for the values of a type: both directions may fail, and nothing forces what was encoded
to be decoded again. A value for which it is, with the value itself as the result, round-trips. -/

structure Serde (E J : Type) where
  encode : E → Except String J
  decode : J → Except String E

namespace Serde

variable {E J K : Type} {serde : Serde E J} {e : E} {j : J}

/-- Encoding succeeds, and what comes out decodes to the same value. -/
def RoundTrips (serde : Serde E J) (e : E) : Prop :=
  ∃ j, serde.encode e = .ok j ∧ serde.decode j = .ok e

theorem RoundTrips.decode_of_encode (h : serde.RoundTrips e) (hj : serde.encode e = .ok j) :
    serde.decode j = .ok e := by
  obtain ⟨j', hj', hdecode⟩ := h
  rw [hj, Except.ok.injEq] at hj'
  exact hj' ▸ hdecode

/-- What one serializer encodes is encoded by the next. -/
def comp (serde : Serde E J) (next : Serde J K) : Serde E K where
  encode e := serde.encode e >>= next.encode
  decode k := next.decode k >>= serde.decode

theorem RoundTrips.comp {next : Serde J K} (h : serde.RoundTrips e)
    (hnext : ∀ j, next.RoundTrips j) : (serde.comp next).RoundTrips e := by
  obtain ⟨j, hencode, hdecode⟩ := h
  obtain ⟨k, hencode', hdecode'⟩ := hnext j
  refine ⟨k, ?_, ?_⟩
  · simp only [Serde.comp, hencode]
    exact hencode'
  · simp only [Serde.comp, hdecode']
    exact hdecode

/-- Booleans as texts. -/
def bool : Serde Bool String where
  encode b := .ok (if b then "true" else "false")
  decode s := if s = "true" then .ok true else if s = "false" then .ok false
    else .error "invalid type"

theorem bool_roundTrips (b : Bool) : bool.RoundTrips b := by
  cases b
  · exact ⟨"false", rfl, rfl⟩
  · exact ⟨"true", rfl, rfl⟩

/-- Values that are their own serialization. -/
def identity : Serde E E := ⟨.ok, .ok⟩

theorem identity_roundTrips (e : E) : identity.RoundTrips e := ⟨e, rfl, rfl⟩

end Serde
