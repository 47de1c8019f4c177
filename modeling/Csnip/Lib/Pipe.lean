/-
A sender and a receiver at the two ends of a bounded channel.

A channel accepts as much as it has room for and delivers as much as it holds.  The sender fetches
a piece at a time and sends what is left of it until it is accepted; the receiver asks again and
again.  They take their turns in any order, one operation of the channel a turn.

Nothing is lost, doubled or brought out of order on the way (`Inv`), and when the turns are fair
every piece in front of the first empty one is delivered (`delivers`): whoever of the two can do
something next is told by whether the channel is empty.
-/
import Csnip.Lib.Fair
import Mathlib.Data.List.Basic
import Mathlib.Data.Nat.Init

namespace Pipe

open Fair

variable {σ α ρ : Type*}

/-- A channel of bounded size. -/
structure Channel (σ α : Type*) where
  Valid : σ → Prop
  content : σ → List α
  capacity : σ → ℕ
  send : σ → List α → Option (ℕ × σ)
  receive : σ → ℕ → Option (List α × σ)
  capacity_pos : ∀ c, Valid c → 0 < capacity c
  send_spec : ∀ c bytes, Valid c → ∃ d,
    send c bytes = some (min bytes.length (capacity c - (content c).length), d) ∧ Valid d ∧
      content d = content c ++ bytes.take (min bytes.length (capacity c - (content c).length))
  receive_spec : ∀ c count, Valid c → ∃ d,
    receive c count = some ((content c).take count, d) ∧ Valid d ∧
      content d = (content c).drop count

/-- A receiver: how much it asks for, and what it makes of what it gets. -/
structure Receiver (ρ α : Type*) where
  request : ρ → ℕ
  take : ρ → List α → ρ
  request_pos : ∀ r, 0 < request r

/-- Where the sender is. -/
inductive Sender
  /-- About to fetch piece `k`. -/
  | fetching (k : ℕ)
  /-- `done` cells of piece `k` are accepted. -/
  | sending (k done : ℕ)
  /-- Piece `k` was empty. -/
  | ended (k : ℕ)
deriving Repr, DecidableEq

inductive Party
  | sender
  | receiver
deriving Repr, DecidableEq

/-- The channel with its two ends, and what has been delivered. -/
structure State (σ α ρ : Type*) where
  channel : σ
  sender : Sender
  receiver : ρ
  delivered : List α

section Steps

variable (C : Channel σ α) (R : Receiver ρ α) (pieces : ℕ → List α)

/-- A turn of the sender; when it has ended nothing happens. -/
def senderNext (s : State σ α ρ) : Option (State σ α ρ) :=
  match s.sender with
  | .fetching k =>
      some { s with sender := if (pieces k).length < 1 then .ended k else .sending k 0 }
  | .sending k done =>
      (C.send s.channel ((pieces k).drop done)).map fun r =>
        { s with
          channel := r.2
          sender := if done + r.1 < (pieces k).length then .sending k (done + r.1)
            else .fetching (k + 1) }
  | .ended _ => some s

/-- A turn of the receiver. -/
def receiverNext (s : State σ α ρ) : Option (State σ α ρ) :=
  (C.receive s.channel (R.request s.receiver)).map fun r =>
    { s with
      channel := r.2
      receiver := R.take s.receiver r.1
      delivered := s.delivered ++ r.1 }

def next (s : State σ α ρ) : Party → Option (State σ α ρ)
  | .sender => senderNext C pieces s
  | .receiver => receiverNext C R s

/-- At the start nothing is sent. -/
def start (c : σ) (r : ρ) : State σ α ρ := ⟨c, .fetching 0, r, []⟩

/-- The first `k` pieces. -/
def upTo (k : ℕ) : List α := (List.range k).flatMap pieces

/-- The piece the sender is at. -/
def Sender.index : Sender → ℕ
  | .fetching k => k
  | .sending k _ => k
  | .ended k => k

/-- What the channel has accepted. -/
def sent : Sender → List α
  | .fetching k => upTo pieces k
  | .sending k done => upTo pieces k ++ (pieces k).take done
  | .ended k => upTo pieces k

/-- What holds at every moment. -/
structure Inv (s : State σ α ρ) : Prop where
  valid : C.Valid s.channel
  order : sent pieces s.sender = s.delivered ++ C.content s.channel
  past : ∀ k < s.sender.index, pieces k ≠ []
  rest : ∀ k done, s.sender = .sending k done → done < (pieces k).length
  empty : ∀ k, s.sender = .ended k → pieces k = []

end Steps

section Rules

variable {C : Channel σ α} {R : Receiver ρ α} {pieces : ℕ → List α} {s t : State σ α ρ}

theorem upTo_succ (k : ℕ) : upTo pieces (k + 1) = upTo pieces k ++ pieces k := by
  rw [upTo, List.range_succ, List.flatMap_append, List.flatMap_singleton]
  rfl

theorem upTo_front {j k : ℕ} (h : j ≤ k) : upTo pieces j <+: upTo pieces k := by
  induction k, h using Nat.le_induction with
  | base => exact List.prefix_refl _
  | succ k _ ih =>
      rw [upTo_succ]
      exact ih.trans (List.prefix_append _ _)

theorem start_inv {c : σ} (r : ρ) (h : C.Valid c) (hempty : C.content c = []) :
    Inv C pieces (start c r : State σ α ρ) := by
  refine ⟨h, ?_, fun k hk => absurd hk (Nat.not_lt_zero k), fun k done hsender => ?_,
    fun k hsender => ?_⟩
  · show upTo pieces 0 = [] ++ C.content c
    rw [hempty]
    rfl
  · cases hsender
  · cases hsender

/-- What a turn of the sender can have done. -/
theorem sender_cases (h : Inv C pieces s) : ∃ t, senderNext C pieces s = some t ∧
    t.receiver = s.receiver ∧ t.delivered = s.delivered ∧
    ((∃ k, s.sender = .fetching k ∧ pieces k = [] ∧ t.sender = .ended k ∧
        t.channel = s.channel) ∨
      (∃ k, s.sender = .fetching k ∧ pieces k ≠ [] ∧ t.sender = .sending k 0 ∧
        t.channel = s.channel) ∨
      (∃ k done n, s.sender = .sending k done ∧
        n = min ((pieces k).length - done)
          (C.capacity s.channel - (C.content s.channel).length) ∧
        C.Valid t.channel ∧
        C.content t.channel = C.content s.channel ++ ((pieces k).drop done).take n ∧
        t.sender = if done + n < (pieces k).length then .sending k (done + n)
          else .fetching (k + 1)) ∨
      ∃ k, s.sender = .ended k ∧ t = s) := by
  unfold senderNext
  cases hsender : s.sender with
  | fetching k =>
      refine ⟨_, rfl, rfl, rfl, ?_⟩
      by_cases hnil : pieces k = []
      · refine .inl ⟨k, rfl, hnil, ?_, rfl⟩
        rw [hnil]
        rfl
      · have hpos := List.length_pos_iff.mpr hnil
        exact .inr (.inl ⟨k, rfl, hnil, if_neg (by omega), rfl⟩)
  | sending k done =>
      obtain ⟨d, hsend, hvalid, hcontent⟩ :=
        C.send_spec s.channel ((pieces k).drop done) h.valid
      rw [List.length_drop] at hsend hcontent
      dsimp only
      rw [hsend]
      exact ⟨_, rfl, rfl, rfl, .inr (.inr (.inl ⟨k, done, _, rfl, rfl, hvalid, hcontent, rfl⟩))⟩
  | ended k => exact ⟨s, rfl, rfl, rfl, .inr (.inr (.inr ⟨k, rfl, rfl⟩))⟩

/-- What a turn of the receiver does. -/
theorem receiver_cases (h : Inv C pieces s) : ∃ t, receiverNext C R s = some t ∧
    t.sender = s.sender ∧
    t.receiver = R.take s.receiver ((C.content s.channel).take (R.request s.receiver)) ∧
    t.delivered = s.delivered ++ (C.content s.channel).take (R.request s.receiver) ∧
    C.Valid t.channel ∧
    C.content t.channel = (C.content s.channel).drop (R.request s.receiver) := by
  obtain ⟨d, hreceive, hvalid, hcontent⟩ :=
    C.receive_spec s.channel (R.request s.receiver) h.valid
  rw [receiverNext, hreceive]
  exact ⟨_, rfl, rfl, rfl, rfl, hvalid, hcontent⟩

theorem sender_inv (h : Inv C pieces s) :
    ∃ t, senderNext C pieces s = some t ∧ Inv C pieces t := by
  obtain ⟨t, hnext, -, hdelivered, hcases⟩ := sender_cases h
  refine ⟨t, hnext, ?_⟩
  have horder := h.order
  have hpast := h.past
  rcases hcases with ⟨k, hs, hnil, ht, hc⟩ | ⟨k, hs, hnil, ht, hc⟩ |
    ⟨k, done, n, hs, hn, hvalid, hcontent, ht⟩ | ⟨k, hs, rfl⟩
  · rw [hs] at horder hpast
    refine ⟨hc ▸ h.valid, ?_, ?_, fun j d hj => ?_, fun j hj => ?_⟩
    · rw [ht, hdelivered, hc]
      exact horder
    · rw [ht]
      exact hpast
    · rw [ht] at hj
      cases hj
    · rw [ht] at hj
      cases hj
      exact hnil
  · rw [hs] at horder hpast
    refine ⟨hc ▸ h.valid, ?_, ?_, fun j d hj => ?_, fun j hj => ?_⟩
    · rw [ht, hdelivered, hc, sent, List.take_zero, List.append_nil]
      exact horder
    · rw [ht]
      exact hpast
    · rw [ht] at hj
      cases hj
      exact List.length_pos_iff.mpr hnil
    · rw [ht] at hj
      cases hj
  · have hroom := h.rest k done hs
    have hmore : sent pieces t.sender
        = sent pieces s.sender ++ ((pieces k).drop done).take n := by
      rw [ht, hs, sent, List.append_assoc, ← List.take_add]
      by_cases hless : done + n < (pieces k).length
      · rw [if_pos hless, sent]
      · rw [if_neg hless, sent, upTo_succ, List.take_of_length_le (by omega)]
    refine ⟨hvalid, ?_, fun j hj => ?_, fun j d hj => ?_, fun j hj => ?_⟩
    · rw [hmore, horder, hdelivered, hcontent, List.append_assoc]
    · rw [hs] at hpast
      by_cases hjk : j < k
      · exact hpast j hjk
      · have hle : t.sender.index ≤ k + 1 := by
          rw [ht]
          split_ifs
          · exact Nat.le_succ k
          · exact Nat.le_refl (k + 1)
        obtain rfl : j = k := by omega
        exact List.length_pos_iff.mp (by omega)
    · by_cases hless : done + n < (pieces k).length
      · rw [ht, if_pos hless] at hj
        cases hj
        exact hless
      · rw [ht, if_neg hless] at hj
        cases hj
    · by_cases hless : done + n < (pieces k).length
      · rw [ht, if_pos hless] at hj
        cases hj
      · rw [ht, if_neg hless] at hj
        cases hj
  · exact h

theorem receiver_inv (h : Inv C pieces s) :
    ∃ t, receiverNext C R s = some t ∧ Inv C pieces t := by
  obtain ⟨t, hnext, hsender, -, hdelivered, hvalid, hcontent⟩ := receiver_cases (R := R) h
  refine ⟨t, hnext, hvalid, ?_, fun k hk => h.past k (hsender ▸ hk),
    fun k done hk => h.rest k done (hsender ▸ hk), fun k hk => h.empty k (hsender ▸ hk)⟩
  rw [hsender, h.order, hdelivered, hcontent, List.append_assoc, List.take_append_drop]

/-- **Every turn is defined and keeps the invariant.** -/
theorem next_inv (h : Inv C pieces s) (p : Party) :
    ∃ t, next C R pieces s p = some t ∧ Inv C pieces t := by
  cases p with
  | sender => exact sender_inv h
  | receiver => exact receiver_inv h

/-- What the channel has accepted is the front of pieces none of which is empty. -/
theorem Inv.sent_front (h : Inv C pieces s) :
    ∃ k, (∀ j < k, pieces j ≠ []) ∧ sent pieces s.sender <+: upTo pieces k := by
  have hpast := h.past
  cases hsender : s.sender with
  | fetching k =>
      rw [hsender] at hpast
      exact ⟨k, hpast, List.prefix_refl _⟩
  | sending k done =>
      have hroom := h.rest k done hsender
      rw [hsender] at hpast
      refine ⟨k + 1, fun j hj => ?_, ?_⟩
      · by_cases hjk : j < k
        · exact hpast j hjk
        · obtain rfl : j = k := by omega
          exact List.length_pos_iff.mp (by omega)
      · rw [upTo_succ, sent, List.prefix_append_right_inj]
        exact List.take_prefix _ _
  | ended k =>
      rw [hsender] at hpast
      exact ⟨k, hpast, List.prefix_refl _⟩

/-- And so is what is delivered. -/
theorem Inv.delivered_front (h : Inv C pieces s) :
    ∃ k, (∀ j < k, pieces j ≠ []) ∧ s.delivered <+: upTo pieces k := by
  obtain ⟨k, hk, hsent⟩ := h.sent_front
  exact ⟨k, hk, List.IsPrefix.trans ⟨_, h.order.symm⟩ hsent⟩

/-- Nothing behind the first empty piece is delivered. -/
theorem Inv.delivered_front_of_ends {n : ℕ} (h : Inv C pieces s) (hend : pieces n = []) :
    s.delivered <+: upTo pieces n := by
  obtain ⟨k, hk, hdelivered⟩ := h.delivered_front
  exact hdelivered.trans (upTo_front (Nat.le_of_not_lt fun hlt => hk n hlt hend))

end Rules

/-! ### Everything is delivered -/

section Liveness

variable (C : Channel σ α) (pieces : ℕ → List α) (n : ℕ)

/-- The first `n` pieces are delivered. -/
def Done (s : State σ α ρ) : Prop := (upTo pieces n).length ≤ s.delivered.length

/-- The sender's turns until there is something in an empty channel. -/
def Sender.turns : Sender → ℕ
  | .fetching _ => 2
  | .sending _ _ => 1
  | .ended _ => 0

/-- What is left to be done: as long as there is something in the channel the next turn of the
receiver delivers it, and otherwise two turns of the sender come first. -/
def left (s : State σ α ρ) : ℕ :=
  3 * ((upTo pieces n).length - s.delivered.length)
    + if (C.content s.channel).length = 0 then s.sender.turns else 0

/-- Who can do something. -/
def helpful (s : State σ α ρ) : Party :=
  if (C.content s.channel).length = 0 then .sender else .receiver

variable {C : Channel σ α} {R : Receiver ρ α} {pieces : ℕ → List α} {n : ℕ} {s t : State σ α ρ}

/-- Nothing is in the channel and the sender has nothing to send: all is done. -/
theorem done_of_idle {k : ℕ} (hpieces : ∀ j < n, pieces j ≠ []) (h : Inv C pieces s)
    (hnil : (C.content s.channel).length = 0) (hempty : pieces k = [])
    (hsent : sent pieces s.sender = upTo pieces k) : Done pieces n s := by
  have hle : n ≤ k := Nat.le_of_not_lt fun hlt => hpieces k hlt hempty
  have horder := h.order
  rw [List.length_eq_zero_iff.mp hnil, List.append_nil, hsent] at horder
  rw [Done, ← horder]
  exact (upTo_front hle).length_le

/-- A turn of the sender. -/
theorem sender_helps (hpieces : ∀ j < n, pieces j ≠ []) (h : Inv C pieces s)
    (hdone : ¬ Done pieces n s) (hnext : senderNext C pieces s = some t) :
    Helps (left C pieces n) (helpful C) (Done pieces n) s .sender t := by
  obtain ⟨t', hnext', -, hdelivered, hcases⟩ := sender_cases h
  obtain rfl : t' = t := Option.some.inj (hnext'.symm.trans hnext)
  by_cases hnil : (C.content s.channel).length = 0
  · -- the sender can do something
    left
    rcases hcases with ⟨k, hs, hempty, -⟩ | ⟨k, hs, -, ht, hc⟩ |
      ⟨k, done, m, hs, hm, -, hcontent, ht⟩ | ⟨k, hs, -⟩
    · exact absurd (done_of_idle hpieces h hnil hempty (by rw [hs, sent])) hdone
    · rw [left, left, hdelivered, hc, ht, hs, if_pos hnil, if_pos hnil, Sender.turns, Sender.turns]
      omega
    · have hpos := C.capacity_pos s.channel h.valid
      have hroom := h.rest k done hs
      have hlen : (C.content t'.channel).length ≠ 0 := by
        rw [hcontent, List.length_append, List.length_take, List.length_drop]
        omega
      rw [left, left, hdelivered, hs, if_pos hnil, if_neg hlen, Sender.turns]
      omega
    · exact absurd (done_of_idle hpieces h hnil (h.empty k hs) (by rw [hs, sent])) hdone
  · -- what is in the channel stays there for the receiver
    have hlen : (C.content t'.channel).length ≠ 0 := by
      rcases hcases with ⟨_, _, _, _, hc⟩ | ⟨_, _, _, _, hc⟩ |
        ⟨_, _, _, _, _, _, hcontent, _⟩ | ⟨_, _, rfl⟩
      · rwa [hc]
      · rwa [hc]
      · rw [hcontent, List.length_append]
        omega
      · exact hnil
    right
    right
    refine ⟨?_, ?_, ?_⟩
    · rw [left, left, hdelivered, if_neg hlen, if_neg hnil]
    · rw [helpful, helpful, if_neg hlen, if_neg hnil]
    · rw [helpful, if_neg hnil]
      exact Party.noConfusion

/-- A turn of the receiver. -/
theorem receiver_helps (h : Inv C pieces s) (hdone : ¬ Done pieces n s)
    (hnext : receiverNext C R s = some t) :
    Helps (left C pieces n) (helpful C) (Done pieces n) s .receiver t := by
  obtain ⟨t', hnext', hsender, -, hdelivered, -, hcontent⟩ := receiver_cases (R := R) h
  obtain rfl : t' = t := Option.some.inj (hnext'.symm.trans hnext)
  by_cases hnil : (C.content s.channel).length = 0
  · have hstill : (C.content t'.channel).length = 0 := by
      rw [hcontent, List.length_drop, hnil, Nat.zero_sub]
    right
    right
    refine ⟨?_, ?_, ?_⟩
    · rw [left, left, hsender, hdelivered, if_pos hnil, if_pos hstill,
        List.length_eq_zero_iff.mp hnil, List.take_nil, List.append_nil]
    · rw [helpful, helpful, if_pos hnil, if_pos hstill]
    · rw [helpful, if_pos hnil]
      exact Party.noConfusion
  · -- at least one cell is delivered
    have hask := R.request_pos s.receiver
    have hturns : s.sender.turns ≤ 2 := by
      cases s.sender <;> simp [Sender.turns]
    have hmore : s.delivered.length + 1 ≤ t'.delivered.length := by
      rw [hdelivered, List.length_append, List.length_take]
      omega
    rw [Done] at hdone
    left
    rw [left, left, hsender, if_neg hnil]
    split_ifs <;> omega

/-- What is delivered stays delivered. -/
theorem next_delivered (h : Inv C pieces s) {p : Party} (hnext : next C R pieces s p = some t) :
    s.delivered <+: t.delivered := by
  cases p with
  | sender =>
      obtain ⟨t', hnext', -, hdelivered, -⟩ := sender_cases h
      obtain rfl : t' = t := Option.some.inj (hnext'.symm.trans hnext)
      exact hdelivered ▸ List.prefix_refl _
  | receiver =>
      obtain ⟨t', hnext', -, -, hdelivered, -⟩ := receiver_cases (R := R) h
      obtain rfl : t' = t := Option.some.inj (hnext'.symm.trans hnext)
      rw [hdelivered]
      exact List.prefix_append _ _

/-- The invariant holds at every moment of a run. -/
theorem runs_inv {schedule : ℕ → Party} {run : ℕ → State σ α ρ}
    (hrun : Runs (next C R pieces) schedule run) (h0 : Inv C pieces (run 0)) (j : ℕ) :
    Inv C pieces (run j) := by
  refine hrun.invariant h0 (fun s p t hs hnext => ?_) j
  obtain ⟨t', hnext', hinv⟩ := next_inv (R := R) hs p
  obtain rfl : t' = t := Option.some.inj (hnext'.symm.trans hnext)
  exact hinv

/-- **The pieces in front of an empty one are delivered** when the turns are fair. -/
theorem delivers (hpieces : ∀ j < n, pieces j ≠ []) {schedule : ℕ → Party}
    (hfair : IsFair schedule) {run : ℕ → State σ α ρ}
    (hrun : Runs (next C R pieces) schedule run) (h0 : Inv C pieces (run 0)) :
    ∃ m, ∀ j, m ≤ j → upTo pieces n <+: (run j).delivered := by
  have hinv := runs_inv hrun h0
  have hturns : ∀ j, ¬ Done pieces n (run j) →
      Helps (left C pieces n) (helpful C) (Done pieces n) (run j) (schedule j) (run (j + 1)) := by
    intro j hnot
    have hnext := hrun j
    cases hturn : schedule j with
    | sender =>
        rw [hturn] at hnext
        exact sender_helps hpieces (hinv j) hnot hnext
    | receiver =>
        rw [hturn] at hnext
        exact receiver_helps (hinv j) hnot hnext
  obtain ⟨m, hm⟩ := eventually_done hfair hturns
  refine ⟨m, fun j hj => ?_⟩
  induction j, hj using Nat.le_induction with
  | base =>
      obtain ⟨k, -, hdelivered⟩ := (hinv m).delivered_front
      exact List.prefix_of_prefix_length_le (upTo_front (Nat.le_max_left n k))
        (hdelivered.trans (upTo_front (Nat.le_max_right n k))) hm
  | succ j _ ih => exact ih.trans (next_delivered (hinv j) (hrun j))

end Liveness

/-! ### Turn and turn about -/

/-- The sender's turn, the receiver's turn, and so on. -/
def byTurns (n : ℕ) : Party := if n % 2 = 0 then .sender else .receiver

theorem byTurns_fair : IsFair byTurns := by
  intro p n
  cases p with
  | sender => exact ⟨2 * n, by omega, if_pos (by omega)⟩
  | receiver => exact ⟨2 * n + 1, by omega, if_neg (by omega)⟩

end Pipe
