import IdEffect.Streaming.QueueChannel

set_option autoImplicit false

/-! # Services over a queue channel

`ChannelService` and the Axum bridge both answer a request by a round trip over a shared channel,
and differ in what they make of the result of `read`. Nothing connects the element a call writes
with the one it reads, so both answer each caller with its own response just when the calls take
turns (`each_has_its_own`). -/

namespace IdEffect.Tower

open Calls Transition QueueChannel

variable {Req Res A E : Type}

namespace ChannelService

/-- The end of `ChannelService::call`. -/
def finish : Except QueueError (Option Res) → Except QueueError Res
  | .ok (some x) => .ok x
  | .ok none => .error .disconnected
  | .error e => .error e

def call (Res : Type) : Caller Res Res QueueError where
  finish := finish
  into := id
  finish_some _ := rfl
  finish_none := ⟨.disconnected, rfl⟩

end ChannelService

namespace AxumBridge

/-- `StatusCode::SERVICE_UNAVAILABLE`. -/
def serviceUnavailable : ℕ := 503

def mapQueueError : QueueError → ℕ
  | .disconnected => serviceUnavailable

/-- The end of `exchange`, with the conversions of responses and of status codes. -/
def finish (into : Res → A) (fromStatus : ℕ → E) : Except QueueError (Option Res) → Except E A
  | .ok (some resp) => .ok (into resp)
  | .ok none => .error (fromStatus serviceUnavailable)
  | .error qe => .error (fromStatus (mapQueueError qe))

def exchange (into : Res → A) (fromStatus : ℕ → E) : Caller Res A E where
  finish := finish into fromStatus
  into := into
  finish_some _ := rfl
  finish_none := ⟨fromStatus serviceUnavailable, rfl⟩

end AxumBridge

/-- **Each caller gets its own response when the calls take turns.** On a new queue of any kind, the
    calls of clones of a `ChannelService`, and exchanges over clones of a channel, have their own
    responses, each delivered to one of them, in exactly the runs in which every call that reads
    finds its own response, or one it answers alike, as the oldest element, and no write finds a
    sliding queue full. -/
theorem each_has_its_own {mapIn : Req → Res} {q : Queue (ℕ × Res)} (hq : q.buffered = []) :
    (∀ ls s, exchanges mapIn (ChannelService.call Res) q ls = some s →
      (Answers mapIn (ChannelService.call Res) s ↔ InTurn mapIn (ChannelService.call Res) q ls))
      ∧ ∀ (into : Res → A) (fromStatus : ℕ → E) ls s,
        exchanges mapIn (AxumBridge.exchange into fromStatus) q ls = some s →
          (Answers mapIn (AxumBridge.exchange into fromStatus) s
            ↔ InTurn mapIn (AxumBridge.exchange into fromStatus) q ls) :=
  ⟨fun _ _ hrun => exchanges_answers_iff hq hrun,
    fun _ _ _ _ hrun => exchanges_answers_iff hq hrun⟩

/-- Two calls, the second of which writes when the first has read. -/
def oneAfterTheOther : List (Label ℕ Unit) :=
  [.call 0 1, .call 1 2, .step 0 (), .step 0 (), .step 0 (), .step 1 (), .step 1 (), .step 1 ()]

/-- Two calls that have both written before the second one reads. -/
def overtaking : List (Label ℕ Unit) :=
  [.call 0 1, .call 1 2, .step 0 (), .step 1 (), .step 1 (), .step 1 ()]

theorem each_has_its_own_oneAfterTheOther :
    ∃ s, exchanges (· * 10) (ChannelService.call ℕ) .unbounded oneAfterTheOther = some s
      ∧ Answers (· * 10) (ChannelService.call ℕ) s := by
  have hends : (exchanges (· * 10) (ChannelService.call ℕ) .unbounded oneAfterTheOther).map
      (fun s => s.calls 1) = some (.done 2 (.ok 20)) := by decide
  obtain ⟨s, hrun, -⟩ := Option.map_eq_some_iff.mp hends
  exact ⟨s, hrun, ((each_has_its_own (A := ℕ) (E := ℕ) rfl).1 _ s hrun).mpr (by decide)⟩

/-- The second call is answered with the response to the first. -/
theorem answered_with_anothers :
    ∃ s, exchanges (· * 10) (ChannelService.call ℕ) .unbounded overtaking = some s
      ∧ s.calls 1 = .done 2 (.ok 10) := by
  have hends : (exchanges (· * 10) (ChannelService.call ℕ) .unbounded overtaking).map
      (fun s => s.calls 1) = some (.done 2 (.ok 10)) := by decide
  exact Option.map_eq_some_iff.mp hends

end IdEffect.Tower
