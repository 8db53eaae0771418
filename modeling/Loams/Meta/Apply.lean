/-
# The metastore state machine
-/

import Loams.Control.Run
import Loams.Meta.Collections

namespace Loams.Meta

open Loams.Data Loams.Control Program

namespace MetaState

/-- The handler of a command. -/
def handler : Command → Handler Reply
  | .createNamespace name => createNamespace name
  | .createStream ns name partitions «class» retention =>
    createStream ns name partitions «class» retention
  | .createLink ns name source target options =>
    createLink ns name source target options
  | .commitWal object createdAtMs chunks => commitWal object createdAtMs chunks
  | .setRetention stream retention => setRetention stream retention
  | .swapSegment stream partition replaces segment byteRange maxTimestampMs fence nowMs fresh =>
    swapSegment stream partition replaces segment byteRange maxTimestampMs fence nowMs fresh
  | .trimPartition stream partition beforeOffset fence nowMs =>
    trimPartition stream partition beforeOffset fence nowMs
  | .pruneWalCommits fence nowMs => pruneWalCommits fence nowMs
  | .forgetObjects objects fence => forgetObjects objects fence
  | .acquireLease key owner ttlMs nowMs => acquireLease key owner ttlMs nowMs
  | .renewLease key owner epoch ttlMs nowMs => renewLease key owner epoch ttlMs nowMs
  | .reacquireLease key owner epoch ttlMs nowMs => reacquireLease key owner epoch ttlMs nowMs
  | .releaseLease key owner epoch => releaseLease key owner epoch
  | .casPointer ns key expected value fence fresh =>
    casPointer ns key expected value fence fresh
  | .createCollection ns name schema partitions =>
    createCollection ns name schema partitions
  | .dropCollection ns name nowMs => dropCollection ns name nowMs
  | .updateCollectionSchema collection expectedVersion schema =>
    updateCollectionSchema collection expectedVersion schema
  | .updateAliases ns actions => updateAliases ns actions
  | .setCollectionHot collection hot => setCollectionHot collection hot
  | .updateAliasTargets ns actions => updateAliasTargets ns actions
  | .claimIdempotencyKeys stream owner keys ttlMs nowMs =>
    claimIdempotencyKeys stream owner keys ttlMs nowMs
  | .completeIdempotencyKeys stream owner done windowMs nowMs =>
    completeIdempotencyKeys stream owner done windowMs nowMs
  | .releaseIdempotencyKeys stream owner keys => releaseIdempotencyKeys stream owner keys
  | .pruneIdempotencyKeys fence nowMs => pruneIdempotencyKeys fence nowMs

/-- Applies one command: its outcome and the state after it. -/
def apply (s : MetaState) (command : Command) : Except ApplyError Reply × MetaState :=
  (handler command).exec s

/-- The state after a history of commands from the empty state. -/
abbrev after (commands : List Command) : MetaState := run apply {} commands

/-- What happened along a history from the empty state. -/
abbrev history (commands : List Command) :
    List (Event MetaState Command (Except ApplyError Reply)) :=
  events apply {} commands

variable {s s' : MetaState} {command : Command} {e : ApplyError}

/-- A command that fails leaves the state as it was. -/
theorem handler_failsClean (command : Command) : (handler command).FailsClean s := by
  cases command with
  | createNamespace => exact createNamespace_failsClean
  | createStream => exact createStream_failsClean
  | createLink => exact createLink_failsClean
  | commitWal => exact commitWal_failsClean
  | setRetention => exact setRetention_failsClean
  | swapSegment => exact swapSegment_failsClean
  | trimPartition => exact trimPartition_failsClean
  | pruneWalCommits => exact pruneWalCommits_failsClean
  | forgetObjects => exact forgetObjects_failsClean
  | acquireLease => exact acquireLease_failsClean
  | renewLease => exact renewLease_failsClean
  | reacquireLease => exact reacquireLease_failsClean
  | releaseLease => exact releaseLease_failsClean
  | casPointer => exact casPointer_failsClean
  | createCollection => exact createCollection_failsClean
  | dropCollection => exact dropCollection_failsClean
  | updateCollectionSchema => exact updateCollectionSchema_failsClean
  | updateAliases => exact updateAliases_failsClean
  | setCollectionHot => exact setCollectionHot_failsClean
  | updateAliasTargets => exact updateAliasTargets_failsClean
  | claimIdempotencyKeys => exact claimIdempotencyKeys_failsClean
  | completeIdempotencyKeys => exact completeIdempotencyKeys_failsClean
  | releaseIdempotencyKeys => exact releaseIdempotencyKeys_failsClean
  | pruneIdempotencyKeys => exact pruneIdempotencyKeys_failsClean

/-- **A refused command changes nothing.** Whatever the state, reached by a history
or not, and whatever the command, an error leaves every map, every id counter and
the clock alone. -/
theorem apply_error_unchanged (herror : (s.apply command).1 = .error e) :
    (s.apply command).2 = s := by
  refine handler_failsClean command e _ ?_
  rw [← herror]
  rfl

/-- A commit of two chunks whose second partition is missing places neither. -/
theorem apply_error_unchanged_commit :
    let s := after [.createNamespace "n", .createStream 1 "s" 1 .standard {}]
    let c := Command.commitWal "wal/1" 0 [⟨1, 0, 3, ⟨0, 9⟩, 0⟩, ⟨1, 1, 2, ⟨9, 12⟩, 0⟩]
    (s.apply c).1 = .error (.partitionNotFound 1 1) ∧ (s.apply c).2 = s := by
  intro s c
  have herror : (s.apply c).1 = .error (.partitionNotFound 1 1) := by decide +kernel
  exact ⟨herror, apply_error_unchanged herror⟩

/-- A command was refused and changed nothing, or it was applied. -/
theorem apply_cases (s : MetaState) (command : Command) :
    (∃ e, (s.apply command).1 = .error e ∧ (s.apply command).2 = s) ∨
      ∃ r, (handler command).exec s = (.ok r, (s.apply command).2) ∧
        (s.apply command).1 = .ok r := by
  cases h : (s.apply command).1 with
  | error e =>
    have hclean := handler_failsClean (s := s) command e (s.apply command).2
    exact .inl ⟨e, rfl, hclean (by rw [← h]; rfl)⟩
  | ok r => exact .inr ⟨r, by rw [← h]; rfl, rfl⟩

/-- What every applied command keeps, every continuation of a history keeps. -/
theorem after_append_induction {P : MetaState → Prop} (commands : List Command)
    {rest : List Command} (base : P (after commands))
    (keep : ∀ s, ∀ command ∈ rest, ∀ r s', P s → (handler command).exec s = (.ok r, s') → P s') :
    P (after (commands ++ rest)) := by
  rw [after, run_append]
  refine run_induction base fun s command hmem hs => ?_
  rcases apply_cases s command with ⟨e, -, hsame⟩ | ⟨r, hok, -⟩
  · rw [hsame]
    exact hs
  · exact keep s command hmem r _ hs hok

/-- A property of states holds after every history when every applied command
keeps it. -/
theorem after_induction {P : MetaState → Prop} {commands : List Command} (base : P {})
    (keep : ∀ s, ∀ command ∈ commands, ∀ r s', P s →
      (handler command).exec s = (.ok r, s') → P s') : P (after commands) :=
  after_append_induction [] base keep

end MetaState

end Loams.Meta
