import Mathlib.Data.List.TakeWhile
import ShaderDialect.Proofs.Frame.Stream
import ShaderDialect.Proofs.Reload.Messages
import ShaderDialect.Reload.Server

/-! A connection over which whole messages arrive. The response to each message is sent in turn up
to the first that is beyond the limit of a message, and there the connection ends. So every message
is answered exactly when every response is within the limit. -/
namespace ShaderDialect.ReloadServer
open List

section Running
variable (s : ReloadServer) (explain : List UInt8 → String)

def treeAfter (tree : FileTree) (payloads : List (List UInt8)) : FileTree :=
  payloads.foldl (fun tree payload => (s.answer tree payload explain).1) tree

/-- The answers to some messages, each given where the ones before it have left the files. -/
def responses : FileTree → List (List UInt8) → List ReloadResponse
  | _, [] => []
  | tree, payload :: payloads =>
    let (tree, response) := s.answer tree payload explain
    response :: responses tree payloads

theorem getElem?_responses (tree : FileTree) (payloads : List (List UInt8)) (k : Nat) :
    (s.responses explain tree payloads)[k]? = payloads[k]?.map fun payload =>
      (s.answer (s.treeAfter explain tree (payloads.take k)) payload explain).2 := by
  induction payloads generalizing tree k with
  | nil => rfl
  | cons payload payloads ih =>
    cases k with
    | zero => rfl
    | succ k =>
      rw [responses, getElem?_cons_succ, ih, getElem?_cons_succ]
      rfl

end Running

section Sending
variable {s : ReloadServer} {explain : List UInt8 → String} {tree : FileTree}
  {stream payload rest : List UInt8}

theorem connection_of_none (h : Frame.read stream = .ok none) :
    s.connection tree stream explain = (tree, []) := by
  rw [connection]
  split
  · rfl
  · next fault hr => simp [h] at hr
  · next p r hr => simp [h] at hr

theorem connection_of_some (h : Frame.read stream = .ok (some (payload, rest))) :
    s.connection tree stream explain =
      match (Frame.write (s.answer tree payload explain).2.toBytes).run.run [] with
      | (.error _, sent) => ((s.answer tree payload explain).1, sent)
      | (.ok (), sent) =>
        let (tree, more) := s.connection (s.answer tree payload explain).1 rest explain
        (tree, sent ++ more) := by
  rw [connection]
  split
  · next hr => simp [h] at hr
  · next fault hr => simp [h] at hr
  · next p r hr =>
    have he : payload = p ∧ rest = r := by simpa [h] using hr
    obtain ⟨rfl, rfl⟩ := he
    rfl

/-- The responses that are sent: those before the first that is beyond the limit. -/
def sendable (answers : List ReloadResponse) : List ReloadResponse :=
  answers.takeWhile fun r => r.size ≤ Frame.maxLength

theorem connection_stream (s : ReloadServer) (explain : List UInt8 → String) (tree : FileTree)
    {payloads : List (List UInt8)} (h : ∀ p ∈ payloads, p.length ≤ Frame.maxLength) :
    s.connection tree (Frame.stream payloads) explain =
      let sent := sendable (s.responses explain tree payloads)
      (s.treeAfter explain tree (payloads.take (sent.length + 1)),
        Frame.stream (sent.map ReloadResponse.toBytes)) := by
  -- The files change from message to message, so the induction is over every tree.
  induction payloads generalizing tree with
  | nil => exact connection_of_none Frame.read_nil
  | cons payload payloads ih =>
    have hread : Frame.read (Frame.stream (payload :: payloads)) =
        .ok (some (payload, Frame.stream payloads)) := Frame.read_bytes (h payload mem_cons_self)
    have hrest := ih (s.answer tree payload explain).1
      fun p hp => h p (mem_cons_of_mem payload hp)
    rw [connection_of_some hread]
    by_cases hsize : (s.answer tree payload explain).2.size ≤ Frame.maxLength
    · have hlength := hsize
      rw [← ReloadResponse.length_toBytes] at hlength
      rw [Frame.write_of_le hlength, hrest]
      simp [sendable, responses, hsize, treeAfter, Frame.stream]
    · have hlength := Nat.not_le.1 hsize
      rw [← ReloadResponse.length_toBytes] at hlength
      rw [Frame.write_of_lt hlength]
      simp [sendable, responses, hsize, treeAfter, Frame.stream]

end Sending

section Answering
variable {answers : List ReloadResponse}

/-- What is sent back answers all: it is one message after the other, each within the limit, and
they are the responses in their order. -/
def Answers (answers : List ReloadResponse) (sent : List UInt8) : Prop :=
  ∃ replies, Frame.readAll sent = (replies, none) ∧
    (∀ reply ∈ replies, reply.length ≤ Frame.maxLength) ∧
    replies.map ReloadResponse.ofBytes? = answers.map some

theorem sendable_eq_self_iff : sendable answers = answers ↔
    ∀ r ∈ answers, r.size ≤ Frame.maxLength := by
  simp [sendable, takeWhile_eq_self_iff]

theorem length_le_of_mem_sendable {reply : List UInt8}
    (h : reply ∈ (sendable answers).map ReloadResponse.toBytes) :
    reply.length ≤ Frame.maxLength := by
  obtain ⟨r, hr, rfl⟩ := mem_map.1 h
  have hsize := mem_takeWhile_imp hr
  rw [ReloadResponse.length_toBytes]
  exact of_decide_eq_true hsize

theorem answers_sendable_iff :
    Answers answers (Frame.stream ((sendable answers).map ReloadResponse.toBytes)) ↔
      ∀ r ∈ answers, r.size ≤ Frame.maxLength := by
  have hread := Frame.readAll_stream fun reply => @length_le_of_mem_sendable answers reply
  have hdecoded : ((sendable answers).map ReloadResponse.toBytes).map ReloadResponse.ofBytes? =
      (sendable answers).map some := by
    simp only [map_map, Function.comp_def, ReloadResponse.ofBytes?_toBytes]
  rw [← sendable_eq_self_iff]
  constructor
  · rintro ⟨replies, hreplies, -, hmap⟩
    have he : replies = (sendable answers).map ReloadResponse.toBytes := by
      rw [hread] at hreplies
      exact (Prod.mk.inj hreplies).1.symm
    rw [he, hdecoded] at hmap
    exact map_injective_iff.2 (fun _ _ => Option.some.inj) hmap
  · intro hall
    refine ⟨_, hread, fun reply => length_le_of_mem_sendable, ?_⟩
    rw [hdecoded, hall]

end Answering

/-- Each message has its answer, which has one written form and is read back from it. What is sent
is the answers in their order, up to the first that is beyond the limit; the message that it answers
is the last one that is met. All messages are answered exactly when no answer is beyond the
limit. -/
theorem connection_answers_iff (s : ReloadServer) (explain : List UInt8 → String) (tree : FileTree)
    (payloads : List (List UInt8)) (h : ∀ p ∈ payloads, p.length ≤ Frame.maxLength) :
    let answers := s.responses explain tree payloads
    let (left, sent) := s.connection tree (Frame.stream payloads) explain
    (∀ k, answers[k]? = payloads[k]?.map fun payload =>
      (s.answer (s.treeAfter explain tree (payloads.take k)) payload explain).2) ∧
    (∀ r ∈ answers, r.toBytes.length = r.size ∧ ReloadResponse.ofBytes? r.toBytes = some r) ∧
    sent = Frame.stream ((sendable answers).map ReloadResponse.toBytes) ∧
    left = s.treeAfter explain tree (payloads.take ((sendable answers).length + 1)) ∧
    (Answers answers sent ↔ ∀ r ∈ answers, r.size ≤ Frame.maxLength) := by
  rw [connection_stream s explain tree h]
  exact ⟨s.getElem?_responses explain tree payloads,
    fun r _ => ⟨r.length_toBytes, r.ofBytes?_toBytes⟩, rfl, rfl, answers_sendable_iff⟩

section LongNames

/-- A server without projects, on a machine that has no programs. -/
def idle : ReloadServer := ⟨[], ⟨[], ⟨"/tmp"⟩, fun _ _ _ => .error .notFound⟩⟩

/-- A request for a project whose name has the given length. -/
def requestFor (n : Nat) : ReloadRequest := ⟨String.ofList (List.replicate n 'x'), []⟩

variable (tree : FileTree) (explain : List UInt8 → String) (n : Nat)

theorem responses_requestFor :
    idle.responses explain tree [(requestFor n).toBytes] =
      [.failed (Failure.reload (.unknownProject (requestFor n).project)).message] := by
  simp only [responses, answer, ReloadRequest.ofBytes?_toBytes, handle, configFor, idle,
    lookup_nil]

theorem length_requestFor : (requestFor n).toBytes.length = n + 25 := by
  have hx : (JsonTree.escapedBytes 'x').length = 1 := by decide
  rw [ReloadRequest.length_toBytes, requestFor, JsonTree.length_raw_replicate hx]
  simp [Nat.add_comm]

theorem message_unknownProject (name : String) :
    (Failure.reload (.unknownProject name)).message =
      "reload error: " ++ ("unknown project '" ++ name ++ "'") := rfl

theorem size_unknownProject :
    (ReloadResponse.failed (Failure.reload (.unknownProject (requestFor n).project)).message).size =
      n + 75 := by
  have hx : (JsonTree.escapedBytes 'x').length = 1 := by decide
  have hkind : (JsonTree.raw "reload error: ").length = 14 := by decide
  have hbefore : (JsonTree.raw "unknown project '").length = 17 := by decide
  have hafter : (JsonTree.raw "'").length = 1 := by decide
  simp only [ReloadResponse.size, ReloadResponse.failed, ReloadResponse.errorSize,
    message_unknownProject, JsonTree.raw_append, length_append, hkind, hbefore, hafter,
    requestFor, JsonTree.length_raw_replicate hx, map_nil, sum_nil, length_nil]
  simp
  omega

/-- A short name is answered; after a name that fills the request up to the limit, the connection
ends without an answer. -/
theorem connection_answers_iff_longName :
    Answers (idle.responses (fun _ => formExpected) ⟨[], []⟩ [(requestFor 4).toBytes])
      (idle.connection ⟨[], []⟩ (Frame.stream [(requestFor 4).toBytes])).2 ∧
    ∃ n, (requestFor n).toBytes.length = Frame.maxLength ∧
      (idle.connection ⟨[], []⟩ (Frame.stream [(requestFor n).toBytes])).2 = [] ∧
      ¬ Answers (idle.responses (fun _ => formExpected) ⟨[], []⟩ [(requestFor n).toBytes])
        (idle.connection ⟨[], []⟩ (Frame.stream [(requestFor n).toBytes])).2 := by
  have hlimit : Frame.maxLength = 67108864 := by decide
  obtain ⟨n, hn⟩ : ∃ n, n + 25 = Frame.maxLength := ⟨Frame.maxLength - 25, by omega⟩
  have hshort : ∀ p ∈ [(requestFor 4).toBytes], p.length ≤ Frame.maxLength := by
    rw [forall_mem_singleton, length_requestFor]
    omega
  have hlong : ∀ p ∈ [(requestFor n).toBytes], p.length ≤ Frame.maxLength := by
    rw [forall_mem_singleton, length_requestFor]
    omega
  obtain ⟨-, -, -, -, hmet⟩ :=
    connection_answers_iff idle (fun _ => formExpected) ⟨[], []⟩ _ hshort
  obtain ⟨-, -, hsent, -, hunmet⟩ :=
    connection_answers_iff idle (fun _ => formExpected) ⟨[], []⟩ _ hlong
  rw [responses_requestFor, forall_mem_singleton, size_unknownProject] at hmet hunmet
  rw [responses_requestFor] at hsent ⊢
  refine ⟨hmet.2 (by omega), n, ?_, ?_, fun hanswers => ?_⟩
  · rw [length_requestFor, hn]
  · rw [hsent, sendable, takeWhile_cons_of_neg]
    · rfl
    · rw [size_unknownProject, decide_eq_true_iff]
      omega
  · rw [responses_requestFor] at hanswers
    have hle := hunmet.1 hanswers
    omega

end LongNames

end ShaderDialect.ReloadServer
