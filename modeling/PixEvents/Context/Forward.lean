import PixEvents.Codec.Decode
import Mathlib.Data.List.Forall2

namespace PixEvents.Context

open PixEvents.Codec

/-- A call that reaches a D3D12 command list or command queue through `lpVtbl`; `blob` is what
the context reads from `(pData, Size)`. -/
inductive ContextCall
  | setMarker (metadata : Nat) (blob : List (BitVec 64))
  | beginEvent (metadata : Nat) (blob : List (BitVec 64))
  | endEvent
  deriving DecidableEq, Repr

/-- The shared body of the four forwarding functions: serialize into the local
`uint64_t data[64]`, which sits at address `frame` of a stack holding `stack`, then pass
`(data, size)` on. A context is the list of calls it has received, oldest first. -/
def forwardEvent (call : Nat → List (BitVec 64) → ContextCall) (type : PixEventType)
    (context : List ContextCall) (color : BitVec 64) (message : Nat → BitVec 8) (frame : Nat)
    (stack : Memory) : List ContextCall :=
  context ++
    [call d3d12EventMetadata (eventBlob frame (pixSerializeEvent type color message frame stack))]

def pixSetMarkerCommandList (commandList : List ContextCall) (color : BitVec 64)
    (message : Nat → BitVec 8) (frame : Nat) (stack : Memory) : List ContextCall :=
  forwardEvent .setMarker .setMarkerOnContextVarArgs commandList color message frame stack

def pixSetMarkerCommandQueue (commandQueue : List ContextCall) (color : BitVec 64)
    (message : Nat → BitVec 8) (frame : Nat) (stack : Memory) : List ContextCall :=
  forwardEvent .setMarker .setMarkerOnContextVarArgs commandQueue color message frame stack

def pixBeginEventCommandList (commandList : List ContextCall) (color : BitVec 64)
    (message : Nat → BitVec 8) (frame : Nat) (stack : Memory) : List ContextCall :=
  forwardEvent .beginEvent .beginEventOnContextVarArgs commandList color message frame stack

def pixBeginEventCommandQueue (commandQueue : List ContextCall) (color : BitVec 64)
    (message : Nat → BitVec 8) (frame : Nat) (stack : Memory) : List ContextCall :=
  forwardEvent .beginEvent .beginEventOnContextVarArgs commandQueue color message frame stack

def pixEndEventCommandList (commandList : List ContextCall) : List ContextCall :=
  commandList ++ [.endEvent]

def pixEndEventCommandQueue (commandQueue : List ContextCall) : List ContextCall :=
  commandQueue ++ [.endEvent]

/-- The call a forwarding function makes, whatever the frame and the stack. -/
theorem forwardEvent_eq (call : Nat → List (BitVec 64) → ContextCall) (type : PixEventType)
    (context : List ContextCall) (color : BitVec 64) (message : Nat → BitVec 8) (frame : Nat)
    (stack : Memory) :
    forwardEvent call type context color message frame stack =
      context ++ [call d3d12EventMetadata (pixEncodeEventInfo 0 type :: color ::
        List.replicate (messageWords message) (qwordScan message).word)] := by
  rw [forwardEvent, eventBlob_eq]

/-- A context never sees a byte past the message's terminator. -/
theorem forwardEvent_source_congr (call : Nat → List (BitVec 64) → ContextCall)
    (type : PixEventType) (context : List ContextCall) (color : BitVec 64)
    (message message' : Nat → BitVec 8) (n : Nat) (hn : FirstNul message n)
    (hs : ∀ j ≤ n, message j = message' j) (frame : Nat) (stack : Memory) :
    forwardEvent call type context color message frame stack =
      forwardEvent call type context color message' frame stack := by
  simp only [forwardEvent_eq, messageWords, qwordScan_congr message message' n hn hs]

theorem forwardEvent_source_congr_hi :
    let s : Nat → BitVec 8 := fun j => if j = 0 then 0x68 else if j = 1 then 0x69 else 0
    let s' : Nat → BitVec 8 := fun j => if j = 3 then 0x58 else s j
    FirstNul s 2 ∧ (∀ j ≤ 2, s j = s' j) ∧
      forwardEvent .setMarker .setMarkerOnContextVarArgs [] 5 s 0 (fun _ => 0) =
        forwardEvent .setMarker .setMarkerOnContextVarArgs [] 5 s' 0 (fun _ => 0) :=
  ⟨⟨by decide, by decide⟩, by decide,
    forwardEvent_source_congr _ _ _ _ _ _ 2 ⟨by decide, by decide⟩ (by decide) _ _⟩

/-- An instrumentation call on one context. -/
inductive PixCall
  | setMarker (color : BitVec 64) (message : Nat → BitVec 8)
  | beginEvent (color : BitVec 64) (message : Nat → BitVec 8)
  | endEvent

/-- Which kind of context the calls go to. -/
inductive Target
  | commandList
  | commandQueue
  deriving DecidableEq, Repr

/-- One call, made with the local array at `frame` over a stack holding `stack`. -/
def PixCall.issue (context : List ContextCall) (frame : Nat) (stack : Memory) :
    Target → PixCall → List ContextCall
  | .commandList, .setMarker color message =>
    pixSetMarkerCommandList context color message frame stack
  | .commandQueue, .setMarker color message =>
    pixSetMarkerCommandQueue context color message frame stack
  | .commandList, .beginEvent color message =>
    pixBeginEventCommandList context color message frame stack
  | .commandQueue, .beginEvent color message =>
    pixBeginEventCommandQueue context color message frame stack
  | .commandList, .endEvent => pixEndEventCommandList context
  | .commandQueue, .endEvent => pixEndEventCommandQueue context

/-- `PIXSerializeEvent` writes exactly `data[0 .. size / 8)`: a call overruns its local
`uint64_t data[64]` when that range passes `data[63]`. -/
def PixCall.overruns (frame : Nat) (stack : Memory) : PixCall → Bool
  | .setMarker color message =>
    64 < (pixSerializeEvent .setMarkerOnContextVarArgs color message frame stack).2.toNat / 8
  | .beginEvent color message =>
    64 < (pixSerializeEvent .beginEventOnContextVarArgs color message frame stack).2.toNat / 8
  | .endEvent => false

/-- A run of calls on one context; each call brings its own frame address and stack. A call
that overruns its `data[64]` has written into its caller's frame, which C leaves undefined:
the run then has no outcome (`none`). -/
def run (target : Target) :
    List ContextCall → List (PixCall × Nat × Memory) → Option (List ContextCall)
  | context, [] => some context
  | context, (c, frame, stack) :: rest =>
    if c.overruns frame stack then none else run target (c.issue context frame stack target) rest

/-- The context call that a `PixCall` produces, as the code builds it. -/
def PixCall.contextCall : PixCall → ContextCall
  | .setMarker color message => .setMarker d3d12EventMetadata
      (pixEncodeEventInfo 0 .setMarkerOnContextVarArgs :: color ::
        List.replicate (messageWords message) (qwordScan message).word)
  | .beginEvent color message => .beginEvent d3d12EventMetadata
      (pixEncodeEventInfo 0 .beginEventOnContextVarArgs :: color ::
        List.replicate (messageWords message) (qwordScan message).word)
  | .endEvent => .endEvent

/-- Each call appends exactly one context call, and which one depends only on the call. -/
theorem issue_eq (context : List ContextCall) (frame : Nat) (stack : Memory) (target : Target)
    (c : PixCall) : c.issue context frame stack target = context ++ [c.contextCall] := by
  cases target <;> cases c <;> simp only [PixCall.issue, PixCall.contextCall,
    pixSetMarkerCommandList, pixSetMarkerCommandQueue, pixBeginEventCommandList,
    pixBeginEventCommandQueue, pixEndEventCommandList, pixEndEventCommandQueue, forwardEvent_eq]

/-- The message of a call ends within its first qword. -/
def PixCall.ShortMessage : PixCall → Prop
  | .setMarker _ message | .beginEvent _ message => ∃ n < 8, FirstNul message n
  | .endEvent => True

/-- A call overruns its array exactly when its message has no NUL in its first eight bytes:
the copy then stores 64 qwords from `data + 2`, wherever the array is and whatever it held. -/
theorem overruns_iff (c : PixCall) (frame : Nat) (stack : Memory) :
    c.overruns frame stack = true ↔ ¬c.ShortMessage := by
  cases c with
  | setMarker _ message | beginEvent _ message =>
    simp only [PixCall.overruns, PixCall.ShortMessage, decide_eq_true_eq, pixSerializeEvent_size]
    rcases firstNul_or_nonzero message with ⟨n, h8, hn⟩ | hz
    · rw [messageWords_of_firstNul message n hn h8]
      exact iff_of_false (by omega) (not_not.mpr ⟨n, h8, hn⟩)
    · rw [messageWords_of_nonzero message hz]
      exact iff_of_true (by omega) fun ⟨n, h8, hn⟩ => hz n h8 hn.1
  | endEvent => simp [PixCall.overruns, PixCall.ShortMessage]

/-- A run whose calls all stay inside their arrays appends one context call per call. -/
theorem run_of_short (target : Target) (context : List ContextCall)
    (calls : List (PixCall × Nat × Memory)) (h : ∀ c ∈ calls, c.1.ShortMessage) :
    run target context calls = some (context ++ calls.map fun c => c.1.contextCall) := by
  induction calls generalizing context with
  | nil => simp [run]
  | cons c rest ih =>
    obtain ⟨c, frame, stack⟩ := c
    obtain ⟨hc, hr⟩ := List.forall_mem_cons.mp h
    rw [run, if_neg (mt (overruns_iff c frame stack).mp (not_not.mpr hc)), ih _ hr, issue_eq,
      List.map_cons, List.append_assoc, List.singleton_append]

/-- A run in which some call overruns its array has no outcome. -/
theorem run_of_overrun (target : Target) (context : List ContextCall)
    (calls : List (PixCall × Nat × Memory)) (h : ¬∀ c ∈ calls, c.1.ShortMessage) :
    run target context calls = none := by
  induction calls generalizing context with
  | nil => simp at h
  | cons c rest ih =>
    obtain ⟨c, frame, stack⟩ := c
    rw [List.forall_mem_cons, not_and_or] at h
    rw [run]
    split_ifs with hc
    · rfl
    · exact ih _ (h.resolve_left fun hs => hc ((overruns_iff c frame stack).mpr hs))

/-- `PIXSetMarker(ctx, 0, "ABCDEFGH")` writes `data[64]` and `data[65]`: the run is undefined. -/
example : run .commandList [] [(.setMarker 0 abcdefgh, 0, fun _ => 0)] = none :=
  run_of_overrun _ _ _ fun h => by
    obtain ⟨n, h8, hn⟩ := h _ (List.mem_singleton_self _)
    exact abcdefgh_nonzero n h8 hn.1

/-- A context call reports a `PixCall` when it has the same kind and metadata 2, and its blob
decodes to the call's type, timestamp 0, its color and its message. -/
def Reports : PixCall → ContextCall → Prop
  | .setMarker color message, .setMarker metadata blob =>
    metadata = d3d12EventMetadata ∧ ∃ n, FirstNul message n ∧ decodeMinimal blob =
      some ⟨PixEventType.setMarkerOnContextVarArgs.toUInt64, 0, color, (List.range n).map message⟩
  | .beginEvent color message, .beginEvent metadata blob =>
    metadata = d3d12EventMetadata ∧ ∃ n, FirstNul message n ∧ decodeMinimal blob =
      some ⟨PixEventType.beginEventOnContextVarArgs.toUInt64, 0, color, (List.range n).map message⟩
  | .endEvent, .endEvent => True
  | _, _ => False

theorem reports_contextCall (c : PixCall) (hc : c.ShortMessage) : Reports c c.contextCall := by
  cases c with
  | setMarker color message | beginEvent color message =>
    obtain ⟨n, h8, hn⟩ := hc
    refine ⟨rfl, n, hn, ?_⟩
    rw [← eventBlob_eq _ _ _ 0 fun _ => 0, decodeMinimal_of_firstNul _ _ _ _ _ n hn h8,
      toUInt64_and_pixEventsTypeWriteMask_of_named _ (by simp)]
  | endEvent => trivial

/-- Every run whose messages end within their first qword is defined, and is reported call by
call, in order, to the context. -/
theorem run_reports (target : Target) (calls : List (PixCall × Nat × Memory))
    (h : ∀ c ∈ calls, c.1.ShortMessage) :
    ∃ context, run target [] calls = some context ∧
      List.Forall₂ Reports (calls.map Prod.fst) context := by
  refine ⟨_, run_of_short target [] calls h, ?_⟩
  rw [List.nil_append, List.forall₂_map_left_iff, List.forall₂_map_right_iff, List.forall₂_same]
  exact fun c hc => reports_contextCall c.1 (h c hc)

/-- Begin `"msg"`, a marker `"msg"`, then an end, on a command queue. -/
theorem run_reports_msg :
    let msg : Nat → BitVec 8 := fun j => if j = 0 then 0x6D else if j = 1 then 0x73
      else if j = 2 then 0x67 else 0
    let calls : List (PixCall × Nat × Memory) :=
      [(.beginEvent 7 msg, 0, fun _ => 0), (.setMarker 4 msg, 0, fun _ => 0), (.endEvent, 0, fun _ => 0)]
    (∀ c ∈ calls, c.1.ShortMessage) ∧
      ∃ context, run .commandQueue [] calls = some context ∧
        List.Forall₂ Reports (calls.map Prod.fst) context := by
  intro msg calls
  have hm : ∃ n < 8, FirstNul msg n := ⟨3, by decide, by decide, by decide⟩
  have hc : ∀ c ∈ calls, c.1.ShortMessage := by
    simp only [calls, List.mem_cons, List.not_mem_nil, or_false]
    rintro c (rfl | rfl | rfl)
    exacts [hm, hm, trivial]
  exact ⟨hc, run_reports .commandQueue calls hc⟩

end PixEvents.Context
