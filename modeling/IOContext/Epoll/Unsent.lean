import IOContext.Epoll.Server

/-!
# The epoll server: partial sends lose nothing

`flush_send_once` offers the kernel up to eight buffers and then takes off the queue what the kernel has accepted. The
two loops agree on what has been sent: the unsent bytes are the old ones without the first `sent` of them
(`unsent_consume`, `partial_send`).
-/

namespace IOContext.Epoll

/-- The bytes that are still to be sent: the first buffer from the offset on, then the others. -/
def unsent : List OwnedBuf → Nat → Bytes
  | [], _ => []
  | b :: q, off => b.bytes.drop off ++ q.flatMap fun b => b.bytes

/-- The offset is one into the first buffer. -/
def OffsetIn : List OwnedBuf → Nat → Prop
  | [], _ => True
  | b :: _, off => off ≤ b.bytes.length

namespace Worker

theorem unsent_zero (q : List OwnedBuf) : unsent q 0 = q.flatMap fun b => b.bytes := by
  cases q with
  | nil => rfl
  | cons b q => rfl

theorem offsetIn_zero (q : List OwnedBuf) : OffsetIn q 0 := by
  cases q with
  | nil => trivial
  | cons b q => exact Nat.zero_le _

/-- What is taken off the queue is what was sent, as long as no more was sent than `gather` offers. -/
theorem unsent_consume : ∀ (q : List OwnedBuf) (k off n : Nat), OffsetIn q off →
    n ≤ (gather k off q).flatten.length →
    unsent (consume q off n).txq (consume q off n).txFirstOffset = (unsent q off).drop n ∧
      OffsetIn (consume q off n).txq (consume q off n).txFirstOffset
  | [], k, off, n, _, _ => by
    refine ⟨?_, trivial⟩
    rw [unsent, List.drop_nil]
    rfl
  | b :: q, 0, off, n, hoff, hn => by
    obtain rfl := Nat.le_zero.mp hn
    exact ⟨by simp [consume], by simpa [consume] using hoff⟩
  | b :: q, k + 1, off, n, hoff, hn => by
    have hlen : (b.bytes.drop off).length = b.bytes.length - off := List.length_drop
    unfold consume
    split
    · rename_i h0
      rw [h0]
      exact ⟨rfl, hoff⟩
    · dsimp only
      split
      · -- the first buffer is sent in part
        rename_i hlt
        refine ⟨?_, by simp only [OffsetIn] at hoff ⊢; omega⟩
        rw [unsent, unsent, List.drop_append_of_le_length (by omega), List.drop_drop]
      · rename_i hge
        have hdrop : (unsent (b :: q) off).drop n =
            (q.flatMap fun b => b.bytes).drop (n - (b.bytes.length - off)) := by
          rw [unsent, List.drop_append, hlen, List.drop_eq_nil_of_le (by omega), List.nil_append]
        split
        · -- it ends a response, and `gather` has stopped with it
          rename_i heor
          have hn : n = b.bytes.length - off := by
            simp only [gather, heor, if_true, List.flatten_cons, List.flatten_nil, List.append_nil, hlen] at hn
            omega
          rw [hdrop, hn, Nat.sub_self, List.drop_zero]
          exact ⟨unsent_zero q, offsetIn_zero q⟩
        · rename_i heor
          rw [hdrop, ← unsent_zero q]
          refine unsent_consume q k 0 _ (offsetIn_zero q) ?_
          simp only [gather, heor, Bool.false_eq_true, if_false, List.flatten_cons, List.length_append, hlen] at hn
          omega

variable {cap : Nat} {i : Fin cap} {w w₁ : Worker cap} {r : SendResult}

/-- The bytes that `sendmsg` is offered. -/
def offered (w : Worker cap) (i : Fin cap) : Nat :=
  (gather maxIov (w.client i).txFirstOffset (w.client i).txq).flatten.length

def unsentOf (w : Worker cap) (i : Fin cap) : Bytes := unsent (w.client i).txq (w.client i).txFirstOffset

/-- One call of `flush_send_once`, by what `sendmsg` answers. -/
theorem partial_send (hoff : OffsetIn (w.client i).txq (w.client i).txFirstOffset)
    (hsend : w.sendmsg (w.client i).fd = (r, w₁)) :
    (∀ n, r = .sent n → 0 < n → n ≤ w.offered i →
      (w.flushSendOnce i).2.unsentOf i = (w.unsentOf i).drop n ∧
      OffsetIn ((w.flushSendOnce i).2.client i).txq ((w.flushSendOnce i).2.client i).txFirstOffset) ∧
    (r = .wouldBlock ∨ r = .sent 0 →
      ((w.flushSendOnce i).2.client i).txq = (w.client i).txq ∧
      ((w.flushSendOnce i).2.client i).txFirstOffset = (w.client i).txFirstOffset) := by
  have hclient : w₁.client = w.client := by
    obtain ⟨r', sends, heq, -⟩ := w.sendmsg_cases (w.client i).fd
    rw [heq] at hsend
    cases hsend
    rfl
  constructor
  · rintro n rfl hpos hle
    have hiov : gather maxIov (w.client i).txFirstOffset (w.client i).txq ≠ [] := by
      intro h
      rw [offered, h] at hle
      exact absurd hle (Nat.not_le_of_lt hpos)
    have htxq : (w.client i).txq ≠ [] := by
      intro h
      rw [h] at hiov
      exact hiov rfl
    have hmin : min n (gather maxIov (w.client i).txFirstOffset (w.client i).txq).flatten.length = n :=
      Nat.min_eq_left hle
    have hflush : (w.flushSendOnce i).2.client i = { w.client i with
        txq := (consume (w.client i).txq (w.client i).txFirstOffset n).txq
        txFirstOffset := (consume (w.client i).txq (w.client i).txFirstOffset n).txFirstOffset } := by
      unfold flushSendOnce
      dsimp only
      rw [if_neg htxq, if_neg hiov, hsend]
      dsimp only
      rw [hmin, if_neg (Nat.ne_of_gt hpos)]
      exact setClient_client
    rw [unsentOf, unsentOf, hflush]
    exact unsent_consume _ maxIov _ _ hoff hle
  · intro hr
    have hsame : (w.flushSendOnce i).2.client i = w.client i := by
      unfold flushSendOnce
      dsimp only
      split
      · rfl
      · split
        · rfl
        · rw [hsend]
          rcases hr with rfl | rfl
          · exact congrFun hclient i
          · dsimp only
            rw [Nat.zero_min, if_pos rfl]
            exact congrFun hclient i
    rw [hsame]
    exact ⟨rfl, rfl⟩

/-- A queue of which a byte has been sent, with an empty buffer in it, and a kernel that takes three bytes more. -/
def partly : Worker 1 where
  slots := fun _ => {
    inUse := true
    client := { fd := 5, txq := [⟨[1, 2, 3], false⟩, ⟨[], false⟩, ⟨[4, 5], true⟩, ⟨[6], false⟩], txFirstOffset := 1 } }
  keepaliveLimit := 2
  listen := 4
  sends := [.sent 3]

theorem partial_send_across : (partly.flushSendOnce 0).2.unsentOf 0 = [5, 6] ∧
    OffsetIn ((partly.flushSendOnce 0).2.client 0).txq ((partly.flushSendOnce 0).2.client 0).txFirstOffset := by
  have hoff : OffsetIn (partly.client 0).txq (partly.client 0).txFirstOffset := show 1 ≤ 3 by decide
  exact (partial_send hoff rfl).1 3 rfl (by decide) (by decide +kernel)

end Worker

end IOContext.Epoll
