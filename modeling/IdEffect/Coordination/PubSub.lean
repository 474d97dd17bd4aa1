import IdEffect.Lib.Broadcast

set_option autoImplicit false

/-! # The hub: `coordination/pubsub.rs`

The state behind a `PubSub` and the sections of its operations. The broadcast channel belongs to a
library and is modelled in `Lib.Broadcast`; it rounds the size of its ring up, so that the number of
slots is a parameter. -/

namespace IdEffect

open Broadcast

variable {A : Type}

inductive PubSubMode where
  | bounded
  | dropping
  | sliding
  | unbounded
deriving DecidableEq

/-- `tx` says whether the sender is still there; the channel itself lives on with its receivers.
    `shutdown` is the watch value. -/
structure PubSubInner (A : Type) where
  tx : Bool
  chan : Channel A
  capacity : ℕ
  mode : PubSubMode
  shutdown : Bool
deriving DecidableEq

namespace PubSubInner

/-- `PubSub::new`, given the number of slots of the channel. -/
def new (ring capacity : ℕ) (mode : PubSubMode) : PubSubInner A :=
  ⟨true, .new ring, capacity, mode, false⟩

def bounded (ring capacity : ℕ) : PubSubInner A := new ring (max capacity 1) .bounded

def dropping (ring capacity : ℕ) : PubSubInner A := new ring (max capacity 1) .dropping

/-- The check of `publish` and `publish_all` before they send. -/
def canSend (p : PubSubInner A) : Bool :=
  match p.mode with
  | .bounded | .dropping => decide (p.chan.len < p.capacity)
  | .sliding | .unbounded => true

/-- The section of `PubSub::shutdown` that holds the lock. -/
def takeSender (p : PubSubInner A) : PubSubInner A := { p with tx := false }

/-- `shutdown_tx.send_replace(true)`. -/
def announce (p : PubSubInner A) : PubSubInner A := { p with shutdown := true }

end PubSubInner

end IdEffect
