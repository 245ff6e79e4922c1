import Httpaa.Http.Composition
import Httpaa.Worker.Answer

/-!
# What a client is sent

A client composes a request and sends it in any pieces, and whatever it sends behind it. It is sent
the response if its method is GET, and nothing otherwise.
-/

namespace Httpaa

open Traced Recogniser

variable (r : RequestMessage)

private theorem asks_compose (body : List UInt8) :
    Asks (r.text ++ body) ↔ r.index = http11MethodGet := by
  have hparse := Text.parseRequestHeaders_compose r body
  have hmethod : methodOf (r.text ++ body) = r.index := by
    rw [methodOf, hparse, writeAll_append, writeAll_linesNotes,
      @writeAll_noteLine {} (bufferOf (r.text ++ body).length) r _ rfl]
    rfl
  rw [Asks, hparse, hmethod]
  exact and_iff_right rfl

private theorem Asks.of_isPrefix {text text' : List UInt8} (hasks : Asks text)
    (h : text <+: text') :
    Asks text' := by
  obtain ⟨more, rfl⟩ := h
  exact (asks_append more hasks.1).mpr hasks

private theorem delivered_take_isPrefix (rounds : List Round) (k : Nat) :
    delivered (rounds.take k) <+: delivered rounds := by
  induction rounds generalizing k with
  | nil => simp
  | cons round rounds ih =>
      cases k with
      | zero => exact List.nil_prefix
      | succ k =>
          rw [List.take_succ_cons, delivered, delivered]
          split
          · exact (List.prefix_append_right_inj _).mpr (ih k)
          · exact List.prefix_refl _

/-- A client that sends a composed request, and then whatever it likes, in any pieces, is sent
nothing unless the method is GET. If it is, and the request is not too long for the buffer, the
client is sent the whole response and the connection is closed once and for all, as long as it goes
on sending and receiving long enough after the request. -/
theorem connect_composed (m : Memory) (r : RequestMessage) (body : List UInt8)
    (rounds : List Round) (hsends : delivered rounds <+: r.text ++ body) :
    (r.index ≠ http11MethodGet → (connect m none).transmitted rounds = []) ∧
    (r.index = http11MethodGet → r.text.length ≤ workeraaWorkRecvBufferSizeDefault →
      ∀ k, (∀ round ∈ rounds, round.Cooperates) →
        r.text.length ≤ (delivered (rounds.take k)).length →
        k + responseText.length < rounds.length →
        (connect m none).transmitted rounds = responseText ∧
          ((connect m none).after rounds).flags.isSelect = false ∧
          ((connect m none).after rounds).Disciplined) := by
  have hreceived (k : Nat) :
      (delivered (rounds.take k)).take workeraaWorkRecvBufferSizeDefault <+: r.text ++ body :=
    ((List.take_prefix _ _).trans (delivered_take_isPrefix rounds k)).trans hsends
  constructor
  · intro hindex
    refine connect_unasked m fun ⟨k, hasks⟩ => hindex ?_
    exact (asks_compose r body).mp (hasks.of_isPrefix (hreceived k))
  · intro hindex hfits k hcooperate hall hlength
    refine connect_sends m k hcooperate ?_ hlength
    obtain ⟨body', hbody'⟩ := List.prefix_of_prefix_length_le (List.prefix_append r.text body)
      (hreceived k) (by rw [List.length_take]; exact Nat.le_min.mpr ⟨hfits, hall⟩)
    rw [← hbody']
    exact (asks_compose r body').mpr hindex

/-- The sample request again and again, of which a byte of the response is taken each time. -/
theorem connect_composed_sampleRequest : (connect ⟨.ofText [], []⟩ none).transmitted
    (List.replicate (responseText.length + 2) ⟨.ready, some sampleRequest.text, some 1⟩) =
      responseText := by
  obtain ⟨b, bytes, htext⟩ := List.exists_cons_of_ne_nil
    (show sampleRequest.text ≠ [] by decide +kernel)
  have hdelivered (rest : List Round) :
      delivered (⟨.ready, some sampleRequest.text, some 1⟩ :: rest) =
        sampleRequest.text ++ delivered rest := by
    simp only [htext, delivered]
  refine ((connect_composed ⟨.ofText [], []⟩ sampleRequest
    (delivered (List.replicate (responseText.length + 1)
      ⟨.ready, some sampleRequest.text, some 1⟩)) _ ?_).2 rfl (by decide +kernel) 1 ?_ ?_ ?_).1
  · have hsends := hdelivered (List.replicate (responseText.length + 1)
      ⟨.ready, some sampleRequest.text, some 1⟩)
    rw [← List.replicate_succ] at hsends
    exact hsends ▸ List.prefix_refl _
  · intro round hround
    rw [List.eq_of_mem_replicate hround]
    exact ⟨rfl, ⟨b, bytes, congrArg some htext⟩, 0, rfl⟩
  · rw [List.replicate_succ, List.take_succ_cons, hdelivered, List.length_append]
    exact Nat.le_add_right _ _
  · rw [List.length_replicate]
    omega

end Httpaa
