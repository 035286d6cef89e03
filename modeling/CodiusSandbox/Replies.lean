import CodiusSandbox.Results
/-!
# Replies and the requests they answer (`codius-util.c:58-265`)

The host reads requests as they come and answers them in whatever order its callbacks end; in between its own code
does as it likes with its JSON nodes and with `next_request_id`. `replies_carry_ids`: the client reads the ids of
the answered requests, in the order of the answers, as long as no result is longer than `codius_read_result` takes.
-/
namespace CodiusSandbox

open TreeHeap Wp

/-! ## Host and client -/

/-- What a process has done to its memory before a call. -/
structure Interlude where
  heap : Heap
  fresh : heap.Fresh
  nextRequestId : Int
  garbage : Garbage

def Interlude.fill (i : Interlude) (s : Process) : Process :=
  { i.garbage.fill s with heap := i.heap, nextRequestId := i.nextRequestId }

/-- An answer to the request that came as number `request`, with a result that holds `value`. -/
structure Answer where
  before : Interlude
  request : Nat
  result : CodiusResult
  value : Option Json
  holds : DataIs before.heap result.data value

inductive HostEvent where
  | read (before : Interlude)
  | answer (a : Answer)

/-- The host's calls; `requests` are those read so far. -/
def runHost (codec : JsonCodec) (fd : Int) : List HostEvent → List CodiusRequest → ProcessM Unit
  | [], _ => return ()
  | .read before :: events, requests => do
    modify before.fill
    match ← codiusReadRequest codec fd with
    | some request => runHost codec fd events (requests ++ [request])
    | none => throw .exit
  | .answer a :: events, requests => do
    modify a.before.fill
    match requests[a.request]? with
    | some request =>
      let _ ← codiusSendReply codec request a.result
      runHost codec fd events requests
    | none => throw .exit

/-- One call of `codius_read_result` after another. -/
def readResults (codec : JsonCodec) : List Interlude → ProcessM (List (Option CodiusResult))
  | [] => return []
  | i :: is => do
    modify i.fill
    let result ← codiusReadResult codec
    return result :: (← readResults codec is)

/-! ## Schedules -/

def answers (events : List HostEvent) : List Answer :=
  events.filterMap fun e => match e with
    | .read _ => none
    | .answer a => some a

/-- Of `arrived` requests and those that are read, none is answered before it has been read. -/
def Causal : Nat → List HostEvent → Prop
  | _, [] => True
  | arrived, .read _ :: events => Causal (arrived + 1) events
  | arrived, .answer a :: events => a.request < arrived ∧ Causal arrived events

def reads : List HostEvent → Nat
  | [] => 0
  | .read _ :: events => reads events + 1
  | .answer _ :: events => reads events

/-- `n` requests are read, and each is answered once. -/
structure IsSchedule (n : Nat) (events : List HostEvent) : Prop where
  causal : Causal 0 events
  all : reads events = n
  once : ((answers events).map Answer.request).Perm (List.range n)

/-- The client reads the ids of the answered requests, in the order of the answers, and nothing is left. -/
def RepliesCarryIds (codec : JsonCodec) (fd : Int) (frames : List Message) (events : List HostEvent)
    (is : List Interlude) (host client : Process) : Prop :=
  Returns (runHost codec fd events []) (fun _ t =>
    Returns (readResults codec is)
      (fun results u => results.map (Option.map CodiusResult.id) =
        (answers events).map (fun a => (frames.map fun m => m.id)[a.request]?) ∧ u.input = [])
      { client with input := t.output, output := [], reads := [], writes := [] })
    { host with input := frames.flatMap Message.frame, output := [], reads := [], writes := [] }

/-! ## The channel -/

section
variable {codec : JsonCodec} {fd : Int} {s : Process} {α : Type}

/-- What the calls on a channel see and change. -/
def Process.channel (s : Process) : Str × List (Option Nat) × Str × List (Option Nat) :=
  (s.input, s.reads, s.output, s.writes)

theorem preserves_onHeap (x : HeapM α) : Preserves Process.channel (onHeap x) := by
  intro s
  unfold wp onHeap
  cases x s.heap with
  | ok a h => rfl
  | error e h => rfl

theorem preserves_requestNew (api method : Str) : Preserves Process.channel (codiusRequestNew api method) :=
  fun _ => rfl

theorem preserves_requestFromString (codec : JsonCodec) (buf : Str) :
    Preserves Process.channel (codiusRequestFromString codec buf) := by
  unfold codiusRequestFromString
  refine .bind (preserves_onHeap _) fun _ => .bind (preserves_onHeap _) fun _ => .bind (preserves_onHeap _) fun _ =>
    .bind (preserves_onHeap _) fun _ => .bind (preserves_onHeap _) fun _ => .bind (preserves_onHeap _) fun _ =>
    .bind (preserves_requestNew _ _) fun _ => .bind (preserves_onHeap _) fun _ => .bind (preserves_onHeap _) fun _ =>
    .pure _

/-- `inbound` is still to be read and `outbound` has been written; every call moves all its bytes. -/
def Process.At (s : Process) (inbound outbound : Str) : Prop := s.channel = (inbound, [], outbound, [])

variable {inbound outbound : Str} {before : Interlude}

theorem Process.At.input (h : s.At inbound outbound) : s.input = inbound := congrArg Prod.fst h

theorem Process.At.reads (h : s.At inbound outbound) : s.reads = [] := congrArg (fun c => c.2.1) h

theorem Process.At.output (h : s.At inbound outbound) : s.output = outbound := congrArg (fun c => c.2.2.1) h

theorem Process.At.writes (h : s.At inbound outbound) : s.writes = [] := congrArg (fun c => c.2.2.2) h

theorem Process.At.fill (h : s.At inbound outbound) (before : Interlude) : (before.fill s).At inbound outbound := h

theorem Process.At.of_preserves {x : ProcessM α} {a : α} {t : Process} (h : s.At inbound outbound)
    (hx : Preserves Process.channel x) (hrun : x s = .ok a t) : t.At inbound outbound := (hx.of_ok hrun).trans h

theorem readFrame_at (terminate : Bool) (m : Message) (h : s.At (m.frame ++ inbound) outbound) :
    ∃ t, readFrame terminate s =
        .ok (some (m.id, m.body ++ (if terminate then [] else s.slack).takeWhile (· ≠ 0))) t ∧
      t.heap = s.heap ∧ t.At inbound outbound := by
  have hframe := readFrame_frame terminate [] m h.reads h.input (Nat.le_max_left _ _) (Nat.le_max_left _ _)
  refine ⟨_, hframe, rfl, ?_⟩
  simp only [Process.At, Process.channel, h.output, h.writes]
  rfl

/-! ## The host -/

/-- The request has the id of its frame. -/
theorem readRequest_run (fd : Int) (m : Message) (h : s.At (m.frame ++ inbound) outbound) (hh : s.heap.Fresh)
    (hwf : ∃ fields, requestFields codec m.body = .ok fields) :
    ∃ request t, codiusReadRequest codec fd s = .ok (some request) t ∧ request.id = m.id ∧ t.At inbound outbound := by
  obtain ⟨t, hframe, hheap, ht⟩ := readFrame_at true m h
  simp only [if_true, List.takeWhile_nil, List.append_nil] at hframe
  obtain ⟨⟨api, method, args⟩, hfields⟩ := hwf
  have hfrom := fromString_run codec m.body (s := t) (by rw [hheap]; exact hh)
  rw [hfields] at hfrom
  obtain ⟨r, u, hrun, -⟩ := hfrom
  refine ⟨{ r with id := m.id, fd := fd }, u, ?_, rfl, ht.of_preserves (preserves_requestFromString codec m.body) hrun⟩
  rw [codiusReadRequest, bind_ok hframe]
  exact bind_ok hrun

theorem sendReply_at {request : CodiusRequest} {result : CodiusResult} {value : Option Json}
    (h : s.At inbound outbound) (hh : s.heap.Fresh) (hdata : DataIs s.heap result.data value) :
    ∃ t, codiusSendReply codec request result s = .ok 0 t ∧
      t.At inbound (outbound ++ frameBytes request.id (sentText codec value)) := by
  refine ⟨_, sendReply_run codec request h.writes hh hdata, ?_⟩
  simp only [Process.At, Process.channel, h.input, h.reads, h.output]

/-- The id of an answer's request. -/
def Answer.idIn (a : Answer) (ids : List Word) : Word := ids.getD a.request 0

/-- The replies, in the order of the answers. -/
def replies (codec : JsonCodec) (ids : List Word) (as : List Answer) : Str :=
  as.flatMap fun a => frameBytes (a.idIn ids) (sentText codec a.value)

/-- From any point of a schedule, the host reads what is left and writes what it still has to answer. -/
theorem runHost_run (codec : JsonCodec) (fd : Int) {ids : List Word} : ∀ {events : List HostEvent}
    {requests : List CodiusRequest} {rest : List Message} {s : Process} {outbound : Str},
    requests.map CodiusRequest.id ++ (rest.map fun m => m.id) = ids →
    (∀ m ∈ rest, ∃ fields, requestFields codec m.body = .ok fields) →
    Causal requests.length events → reads events = rest.length → s.At (rest.flatMap Message.frame) outbound →
    ∃ t, runHost codec fd events requests s = .ok () t ∧ t.At [] (outbound ++ replies codec ids (answers events)) := by
  intro events
  induction events with
  | nil =>
    intro requests rest s outbound _ _ _ hreads hs
    rw [List.length_eq_zero_iff.1 hreads.symm] at hs
    refine ⟨s, rfl, ?_⟩
    rw [show replies codec ids (answers []) = [] from rfl, List.append_nil]
    exact hs
  | cons e events ih =>
    intro requests rest s outbound hids hwf hcausal hreads hs
    cases e with
    | read before =>
      cases rest with
      | nil => cases hreads
      | cons m rest =>
        obtain ⟨hm, hwf⟩ := List.forall_mem_cons.1 hwf
        obtain ⟨request, t, hrun, hid, ht⟩ := readRequest_run fd m (hs.fill before) before.fresh hm
        have hids' : (requests ++ [request]).map CodiusRequest.id ++ (rest.map fun m => m.id) = ids := by
          rw [List.map_append, List.map_singleton, hid, List.append_assoc]
          exact hids
        have hcausal' : Causal (requests ++ [request]).length events := by
          rw [List.length_append]
          exact hcausal
        obtain ⟨u, hrest, hu⟩ := ih hids' hwf hcausal' (Nat.succ.inj hreads) ht
        refine ⟨u, ?_, hu⟩
        rw [runHost, bind_modify, bind_ok hrun]
        exact hrest
    | answer a =>
      obtain ⟨hlt, hcausal⟩ := hcausal
      obtain ⟨t, hrun, ht⟩ := sendReply_at (hs.fill a.before) a.before.fresh a.holds
      obtain ⟨u, hrest, hu⟩ := ih hids hwf hcausal hreads ht
      have hid : a.idIn ids = requests[a.request].id := by
        have hget : ids[a.request]? = some requests[a.request].id := by
          rw [← hids, List.getElem?_append_left (by rw [List.length_map]; exact hlt), List.getElem?_map,
            List.getElem?_eq_getElem hlt]
          rfl
        rw [Answer.idIn, List.getD_eq_getElem?_getD, hget]
        rfl
      refine ⟨u, ?_, ?_⟩
      · rw [runHost, bind_modify, List.getElem?_eq_getElem hlt]
        exact (bind_ok hrun).trans hrest
      · rw [← hid, List.append_assoc] at hu
        exact hu

/-! ## The client -/

/-- A result's frame gives its id, whatever its text decodes to with what lies behind it. -/
theorem readResult_at (codec : JsonCodec) (m : Message) (h : s.At (m.frame ++ inbound) outbound) (hh : s.heap.Fresh) :
    ∃ result t, codiusReadResult codec s = .ok (some result) t ∧ result.id = m.id ∧ t.At inbound outbound := by
  obtain ⟨t, hframe, hheap, ht⟩ := readFrame_at false m h
  have hfresh : t.heap.Fresh := by
    rw [hheap]
    exact hh
  obtain ⟨data, h', hrun, -⟩ := resultFromString_run hfresh (rfl : codec.decode (m.body ++ _) = _)
  have hon := onHeap_ok (s := t) hrun
  refine ⟨⟨0, data, m.id⟩, { t with heap := h' }, ?_, rfl, ht⟩
  rw [codiusReadResult, bind_ok hframe]
  exact bind_ok hon

/-- The reply to an answer whose result is not too long. -/
def Answer.message (codec : JsonCodec) (ids : List Word) (a : Answer)
    (hfit : (sentText codec a.value).length ≤ CODIUS_MAX_RESPONSE_SIZE) : Message where
  id := a.idIn ids
  body := sentText codec a.value
  noNul h := by simpa using List.mem_takeWhile_imp h
  bounded := hfit

theorem readResults_run (codec : JsonCodec) (ids : List Word) : ∀ {as : List Answer} {is : List Interlude} {s : Process},
    (∀ a ∈ as, (sentText codec a.value).length ≤ CODIUS_MAX_RESPONSE_SIZE) → is.length = as.length →
    s.At (replies codec ids as) outbound →
    Returns (readResults codec is)
      (fun results u => results.map (Option.map CodiusResult.id) = as.map (fun a => some (a.idIn ids)) ∧ u.input = [])
      s := by
  intro as
  induction as with
  | nil =>
    intro is s _ hlen hs
    rw [List.length_eq_zero_iff.1 hlen]
    exact ⟨rfl, hs.input⟩
  | cons a as ih =>
    intro is s hfit hlen hs
    obtain ⟨i, is, rfl⟩ := List.exists_cons_of_length_eq_add_one hlen
    obtain ⟨ha, hfit⟩ := List.forall_mem_cons.1 hfit
    have hfirst : (i.fill s).At ((a.message codec ids ha).frame ++ replies codec ids as) outbound := hs
    obtain ⟨result, t, hrun, hid, ht⟩ := readResult_at codec _ hfirst i.fresh
    rw [readResults]
    simp only [returns_bind, returns_modify, returns_pure, returns_ok hrun]
    refine (ih hfit (Nat.succ.inj hlen) ht).mono fun results u hu => ⟨?_, hu.2⟩
    rw [List.map_cons, List.map_cons, hu.1, Option.map_some, hid]
    rfl

/-- A result that is too long is the end of the client. -/
theorem readResult_long (codec : JsonCodec) (id : Word) {body : Str} (h : s.At (frameBytes id body ++ inbound) outbound)
    (hlong : CODIUS_MAX_RESPONSE_SIZE < body.length) (hlt : body.length < 2 ^ 64) :
    ∃ t, codiusReadResult codec s = .error .abort t := by
  obtain ⟨t, habort⟩ := readFrame_long false h.reads h.input hlong hlt
  exact ⟨t, bind_error habort⟩

end

/-! ## Both -/

section
variable {codec : JsonCodec} {fd : Int} {frames : List Message} {events : List HostEvent}

/-- A schedule goes through, and all replies are on the channel. -/
theorem runHost_schedule (fd : Int) (host : Process)
    (hwf : ∀ m ∈ frames, ∃ fields, requestFields codec m.body = .ok fields) (hs : IsSchedule frames.length events) :
    ∃ t, runHost codec fd events []
        { host with input := frames.flatMap Message.frame, output := [], reads := [], writes := [] } = .ok () t ∧
      t.At [] (replies codec (frames.map fun m => m.id) (answers events)) := by
  have hstart : ([] : List CodiusRequest).map CodiusRequest.id ++ (frames.map fun m => m.id) =
      frames.map fun m => m.id := rfl
  have hbegin : Process.At
      { host with input := frames.flatMap Message.frame, output := [], reads := [], writes := [] }
      (frames.flatMap Message.frame) [] := rfl
  exact runHost_run codec fd hstart hwf hs.causal hs.all hbegin

theorem client_at {t : Process} {ids : List Word} (client : Process) (ht : t.At [] (replies codec ids (answers events))) :
    Process.At { client with input := t.output, output := [], reads := [], writes := [] }
      (replies codec ids (answers events)) [] := by
  rw [ht.output]
  rfl

/-- The replies to requests answered in any order have their ids, if no result is too long. -/
theorem replies_carry_ids (codec : JsonCodec) (fd : Int) {is : List Interlude} (host client : Process)
    (hwf : ∀ m ∈ frames, ∃ fields, requestFields codec m.body = .ok fields) (hs : IsSchedule frames.length events)
    (hfit : ∀ a ∈ answers events, (sentText codec a.value).length ≤ CODIUS_MAX_RESPONSE_SIZE)
    (his : is.length = frames.length) : RepliesCarryIds codec fd frames events is host client := by
  obtain ⟨t, hrun, ht⟩ := runHost_schedule fd host hwf hs
  have hlen : is.length = (answers events).length := by
    have hperm := hs.once.length_eq
    rw [List.length_map, List.length_range] at hperm
    rw [his, hperm]
  have hids : (answers events).map (fun a => some (a.idIn (frames.map fun m => m.id))) =
      (answers events).map fun a => (frames.map fun m => m.id)[a.request]? := by
    refine List.map_congr_left fun a ha => ?_
    have hmem := hs.once.subset (List.mem_map_of_mem ha)
    rw [List.mem_range] at hmem
    rw [Answer.idIn, List.getD_eq_getElem?_getD, List.getElem?_eq_getElem (by rw [List.length_map]; exact hmem)]
    rfl
  unfold RepliesCarryIds
  rw [returns_ok hrun, ← hids]
  exact readResults_run codec _ hfit hlen (client_at client ht)

/-- A result that is too long is the end. -/
theorem not_replies_long {is : List Interlude} {a : Answer} (host client : Process)
    (hwf : ∀ m ∈ frames, ∃ fields, requestFields codec m.body = .ok fields) (hs : IsSchedule frames.length events)
    (ha : (answers events).head? = some a) (hlong : CODIUS_MAX_RESPONSE_SIZE < (sentText codec a.value).length)
    (hlt : (sentText codec a.value).length < 2 ^ 64) (his : is ≠ []) :
    ¬ RepliesCarryIds codec fd frames events is host client := by
  obtain ⟨t, hrun, ht⟩ := runHost_schedule fd host hwf hs
  obtain ⟨i, is, rfl⟩ := List.exists_cons_of_ne_nil his
  obtain ⟨as, has⟩ := List.head?_eq_some_iff.1 ha
  have hclient := client_at client ht
  rw [has] at hclient
  obtain ⟨u, habort⟩ := readResult_long codec _ (hclient.fill i) hlong hlt
  unfold RepliesCarryIds
  rw [returns_ok hrun, readResults, returns_bind, returns_modify, returns_bind]
  exact not_returns_of_error habort

end

/-- The start of a process. -/
def idleInterlude : Interlude := ⟨.empty, Heap.fresh_empty, 0, ⟨fun _ => 0, fun _ => 0, []⟩⟩

/-- An answer without data. -/
def plainAnswer (request : Nat) : Answer := ⟨idleInterlude, request, ⟨1, none, 0⟩, none, rfl⟩

def secondMessage : Message := { plainMessage with id := 9 }

/-- Two requests, the second of which is answered first. -/
def swapped : List HostEvent :=
  [.read idleInterlude, .read idleInterlude, .answer (plainAnswer 1), .answer (plainAnswer 0)]

theorem nullRequest_decode : nullRequest.decode plainMessage.body = some (requestJson (str "a") (str "m") .null) :=
  JsonCodec.on_decode _ _ .null

theorem plain_fields : ∃ fields, requestFields nullRequest plainMessage.body = .ok fields :=
  ⟨_, requestFields_requestJson nullRequest_decode⟩

theorem sentText_none (codec : JsonCodec) : sentText codec none = [] := rfl

theorem swapped_isSchedule : IsSchedule 2 swapped :=
  ⟨⟨by decide, by decide, trivial⟩, rfl, by decide⟩

theorem replies_carry_swapped :
    RepliesCarryIds nullRequest 4 [plainMessage, secondMessage] swapped [idleInterlude, idleInterlude]
      (.idle .empty) (.idle .empty) := by
  have hwf : ∀ m ∈ [plainMessage, secondMessage], ∃ fields, requestFields nullRequest m.body = .ok fields := by
    intro m hm
    have hbody : m.body = plainMessage.body := by
      rcases List.mem_pair.1 hm with rfl | rfl
      · rfl
      · rfl
    rw [hbody]
    exact plain_fields
  have hfit : ∀ a ∈ answers swapped, (sentText nullRequest a.value).length ≤ CODIUS_MAX_RESPONSE_SIZE := by
    intro a ha
    have hvalue : a.value = none := by
      rcases List.mem_pair.1 ha with rfl | rfl
      · rfl
      · rfl
    rw [hvalue, sentText_none]
    exact Nat.zero_le _
  have hs : IsSchedule [plainMessage, secondMessage].length swapped := by
    rw [show [plainMessage, secondMessage].length = 2 by simp]
    exact swapped_isSchedule
  -- the run is not to be computed
  generalize swapped = events at hs hfit ⊢
  exact replies_carry_ids nullRequest 4 (.idle .empty) (.idle .empty) hwf hs hfit (by simp)

/-- The codec on a plain request and on strings of letters. -/
def quoting : JsonCodec where
  encode j :=
    match j with
    | .string s => 34 :: s ++ [34]
    | _ => str "null"
  decode := nullRequest.decode

def stringInterlude (s : Str) : Interlude where
  heap := Heap.empty.withNode (.string s)
  fresh := Heap.fresh_empty.withNode _
  nextRequestId := 0
  garbage := ⟨fun _ => 0, fun _ => 0, []⟩

theorem string_holds (s : Str) : DataIs (stringInterlude s).heap (some Heap.empty.next) (some (.string s)) :=
  ⟨_, _, rfl, (build_leaf (j := .string s) Heap.fresh_empty rfl).1⟩

/-- An answer that is a string. -/
def stringAnswer (s : Str) : Answer := ⟨stringInterlude s, 0, ⟨1, some Heap.empty.next, 0⟩, some (.string s), string_holds s⟩

def stringReply (s : Str) : List HostEvent := [.read idleInterlude, .answer (stringAnswer s)]

theorem sentText_string {s : Str} (h : 0 ∉ s) : sentText quoting (some (.string s)) = 34 :: s ++ [34] := by
  have hnoNul : 0 ∉ (34 :: s ++ [34] : Str) := by
    intro h0
    simp only [List.cons_append, List.mem_cons, List.mem_append, List.not_mem_nil, or_false] at h0
    rcases h0 with h0 | h0 | h0
    · cases h0
    · exact h h0
    · cases h0
  exact List.takeWhile_eq_self_iff.2 (all_ne_zero hnoNul)

theorem stringReply_isSchedule (s : Str) : IsSchedule 1 (stringReply s) :=
  ⟨⟨Nat.zero_lt_one, trivial⟩, rfl, List.Perm.refl _⟩

/-- As many letters as a result may have bytes. -/
def longText : Str := List.replicate CODIUS_MAX_RESPONSE_SIZE 97

theorem reply_lost : (∃ fields, requestFields quoting plainMessage.body = .ok fields) ∧
    IsSchedule 1 (stringReply longText) ∧
    ¬ RepliesCarryIds quoting 4 [plainMessage] (stringReply longText) [idleInterlude] (.idle .empty) (.idle .empty) := by
  have hfields : ∃ fields, requestFields quoting plainMessage.body = .ok fields :=
    ⟨_, requestFields_requestJson nullRequest_decode⟩
  refine ⟨hfields, stringReply_isSchedule _, ?_⟩
  have hlen : (sentText quoting (stringAnswer longText).value).length = CODIUS_MAX_RESPONSE_SIZE + 2 := by
    have hnul : 0 ∉ longText := fun h => absurd (List.eq_of_mem_replicate h) (by decide)
    rw [stringAnswer, sentText_string hnul, List.length_append, List.length_cons, longText, List.length_replicate]
    rfl
  have hs := stringReply_isSchedule longText
  have ha : (answers (stringReply longText)).head? = some (stringAnswer longText) := rfl
  -- the run is not to be computed
  generalize stringReply longText = events at hs ha ⊢
  refine not_replies_long _ _ (List.forall_mem_singleton.2 hfields) hs ha ?_ ?_ (List.cons_ne_nil _ _)
  · rw [hlen]
    exact Nat.lt_add_of_pos_right Nat.two_pos
  · rw [hlen]
    decide

end CodiusSandbox
