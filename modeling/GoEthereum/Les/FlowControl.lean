import GoEthereum.Common
import GoEthereum.Lib.GoMap

-- The buffer of a client, as the server keeps it and as the client estimates it.

namespace Les

def uint64 (n : Nat) : Nat :=
  n % 2 ^ 64

theorem uint64_lt (n : Nat) : uint64 n < 2 ^ 64 :=
  Nat.mod_lt _ (Nat.two_pow_pos 64)

-- `x - y` of values of type `uint64`.
def sub64 (x y : Nat) : Nat :=
  uint64 (x + 2 ^ 64 - y)

def fcTimeConst := 1000000

structure ServerParams where
  bufLimit    : Fin (2 ^ 64)
  minRecharge : Fin (2 ^ 64)

variable (p : ServerParams)

-- The value of a buffer at `time`, in `recalcBV` and in `recalcBLE`.
def recharge (value : Nat) (lastTime time : Int) : Nat :=
  min (uint64 (value + uint64 (p.minRecharge * (time - lastTime).toNat) / fcTimeConst)) p.bufLimit

section

variable {p} {value : Nat} {lastTime time : Int}

theorem recharge_le_limit : recharge p value lastTime time ≤ p.bufLimit :=
  min_le_right _ _

theorem recharge_le (value : Nat) (lastTime time : Int) :
    recharge p value lastTime time ≤
      value + p.minRecharge * (time - lastTime).toNat / fcTimeConst := by
  apply (min_le_left _ _).trans
  apply (Nat.mod_le _ _).trans
  apply Nat.add_le_add_left
  exact Nat.div_le_div_right (Nat.mod_le _ _)

theorem recharge_self (h : value ≤ p.bufLimit) : recharge p value time time = value := by
  rw [recharge, sub_self, Int.toNat_zero, mul_zero, uint64, uint64, Nat.zero_mod, Nat.zero_div,
    add_zero, Nat.mod_eq_of_lt (h.trans_lt p.bufLimit.isLt), min_eq_left h]

-- Where the limit leaves room for what is added at once, a buffer does not lose by recharging.
theorem le_recharge (hp : p.bufLimit + 2 ^ 64 / fcTimeConst < 2 ^ 64) (h : value ≤ p.bufLimit)
    (lastTime time : Int) : value ≤ recharge p value lastTime time := by
  have : uint64 (p.minRecharge * (time - lastTime).toNat) / fcTimeConst ≤ 2 ^ 64 / fcTimeConst :=
    Nat.div_le_div_right (uint64_lt _).le
  rw [recharge, le_min_iff, uint64, Nat.mod_eq_of_lt (by omega)]
  exact ⟨Nat.le_add_right _ _, h⟩

end

structure ClientNode where
  bufValue : Nat
  lastTime : Int

structure RequestCosts where
  baseCost : Fin (2 ^ 64)
  reqCost  : Fin (2 ^ 64)

-- A message that is a request, with the times of `AcceptRequest` and `RequestProcessed` and the
-- answer of the client manager to the first. `limit` is for instance `MaxHeaderFetch`.
structure Request where
  costs      : RequestCosts
  amount     : Fin (2 ^ 64)
  limit      : Nat
  accepted   : Bool
  acceptTime : Int
  doneTime   : Int

-- What the request costs, if the sum is in range.
def Request.cost (r : Request) : Nat :=
  r.costs.baseCost + r.amount * r.costs.reqCost

namespace ClientNode

def new (time : Int) : ClientNode where
  bufValue := p.bufLimit
  lastTime := time

def recalcBV (peer : ClientNode) (time : Int) : ClientNode where
  bufValue := recharge p peer.bufValue peer.lastTime time
  lastTime := time

def requestProcessed (peer : ClientNode) (time : Int) (cost rcValue : Nat) : ClientNode :=
  let peer := recalcBV p peer time
  let peer := recalcBV p { peer with bufValue := sub64 peer.bufValue cost } time
  if rcValue < p.bufLimit ∧ p.bufLimit - rcValue > peer.bufValue then
    { peer with bufValue := p.bufLimit - rcValue }
  else peer

-- The number of items that `handleMsg` lets a request have.
def maxReqs (bv : Nat) (costs : RequestCosts) : Nat :=
  let d := bv - costs.baseCost
  if bv < p.bufLimit ∧ d / 10000 < costs.reqCost then d / costs.reqCost else 10000

-- Whether the request gets past the checks of `handleMsg` with the value of `AcceptRequest`.
def Admits (bv : Nat) (r : Request) : Prop :=
  r.accepted ∧ r.costs.baseCost ≤ bv ∧ r.amount ≤ maxReqs p bv r.costs ∧ r.amount ≤ r.limit

instance decidableAdmits (bv : Nat) (r : Request) : Decidable (Admits p bv r) :=
  inferInstanceAs (Decidable (_ ∧ _))

-- `handleMsg`, as far as the buffer is concerned. `rcValue` is what the manager has for the node
-- when the request is processed.
def handleMsg (peer : ClientNode) (r : Request) (rcValue : Fin (2 ^ 64)) : ClientNode :=
  let peer := recalcBV p peer r.acceptTime
  if Admits p peer.bufValue r then
    requestProcessed p peer r.doneTime
      (uint64 (r.costs.baseCost + uint64 (r.amount * r.costs.reqCost))) rcValue
  else peer

-- The buffer after a request, from what it was before and recharged: the request has been paid
-- for, unless the manager knows that the client used less than it was charged.
def Charged (before cost rcValue after : Nat) : Prop :=
  after ≤ p.bufLimit ∧ (after + cost ≤ before ∨ after + rcValue ≤ p.bufLimit)

variable {p} {peer : ClientNode} {r : Request} {bv : Nat}

theorem bufValue_handleMsg_le {rcValue : Fin (2 ^ 64)} :
    (handleMsg p peer r rcValue).bufValue ≤ p.bufLimit := by
  rw [handleMsg]
  split
  case isFalse => exact recharge_le_limit
  case isTrue =>
    rw [requestProcessed]
    split
    case isTrue  => exact Nat.sub_le _ _
    case isFalse => exact recharge_le_limit

-- The admission covers the cost of the request, except where the buffer is full.
theorem cost_le_of_admits (ha : Admits p bv r) (hr : r.cost ≤ p.bufLimit) : r.cost ≤ bv := by
  obtain ⟨-, hb, hm, -⟩ := ha
  rw [maxReqs] at hm
  by_cases hf : bv < p.bufLimit
  case neg => omega
  case pos =>
    have : r.amount * r.costs.reqCost ≤ bv - r.costs.baseCost := by
      split at hm
      case isTrue  => exact (Nat.mul_le_mul_right _ hm).trans (Nat.div_mul_le_self _ _)
      case isFalse h =>
        have h : (r.costs.reqCost : Nat) ≤ (bv - r.costs.baseCost) / 10000 := by
          simpa [hf] using h
        exact (Nat.mul_le_mul hm h).trans (Nat.mul_div_le _ _)
    rw [Request.cost]
    omega

theorem bufValue_requestProcessed {cost rcValue : Nat} {time : Int}
    (h : cost ≤ (recalcBV p peer time).bufValue) :
    (requestProcessed p peer time cost rcValue).bufValue =
      max ((recalcBV p peer time).bufValue - cost) (p.bufLimit - rcValue) := by
  have hl : (recalcBV p peer time).bufValue ≤ p.bufLimit := recharge_le_limit
  have hs : sub64 (recalcBV p peer time).bufValue cost =
      (recalcBV p peer time).bufValue - cost := by
    rw [sub64, uint64]
    omega
  have hr : recalcBV p ⟨(recalcBV p peer time).bufValue - cost, time⟩ time =
      ⟨(recalcBV p peer time).bufValue - cost, time⟩ :=
    congrArg (ClientNode.mk · time) (recharge_self ((Nat.sub_le _ _).trans hl))
  rw [requestProcessed, hs]
  rw [show (recalcBV p peer time).lastTime = time from rfl, hr]
  split
  case isTrue h  => exact (max_eq_right h.right.le).symm
  case isFalse h =>
    dsimp only at h ⊢
    omega

-- The limit has to leave room for what is added at once. The buffer is then charged in any case,
-- unless the request costs more than the buffer can hold: it is admitted when the buffer is full,
-- and what it is charged wraps around.
theorem charged_handleMsg_iff (hp : p.bufLimit + 2 ^ 64 / fcTimeConst < 2 ^ 64) (peer : ClientNode)
    (r : Request) (ha : Admits p (recalcBV p peer r.acceptTime).bufValue r) :
    (∀ rcValue : Fin (2 ^ 64),
      Charged p (recalcBV p (recalcBV p peer r.acceptTime) r.doneTime).bufValue r.cost rcValue
        (handleMsg p peer r rcValue).bufValue) ↔ r.cost ≤ p.bufLimit := by
  have hv : (recalcBV p (recalcBV p peer r.acceptTime) r.doneTime).bufValue ≤ p.bufLimit :=
    recharge_le_limit
  constructor
  case mp =>
    intro h
    have hlt : p.bufLimit.val + 1 < 2 ^ 64 := by
      rw [fcTimeConst] at hp
      omega
    rcases (h ⟨p.bufLimit + 1, hlt⟩).right with h | h
    · exact (Nat.le_of_add_left_le h).trans hv
    · dsimp only at h
      omega
  case mpr =>
    intro hr rcValue
    have hc := (cost_le_of_admits ha hr).trans
      (le_recharge hp recharge_le_limit r.acceptTime r.doneTime)
    have hcost : uint64 (r.costs.baseCost + uint64 (r.amount * r.costs.reqCost)) = r.cost := by
      simp only [uint64, Nat.add_mod_mod]
      exact Nat.mod_eq_of_lt (hr.trans_lt p.bufLimit.isLt)
    refine ⟨bufValue_handleMsg_le, ?_⟩
    rw [handleMsg, if_pos ha, hcost, bufValue_requestProcessed hc]
    change r.cost ≤ (recalcBV p (recalcBV p peer r.acceptTime) r.doneTime).bufValue at hc
    omega

def sampleParams : ServerParams := ⟨100, 1⟩

-- Ten items of cost 10 and a base cost of 10, by a client that used all it may.
def sampleRequest : Request := ⟨⟨10, 10⟩, 10, 192, true, 0, 0⟩

theorem handleMsg_refills :
    Admits sampleParams 100 sampleRequest ∧
      (handleMsg sampleParams (new sampleParams 0) sampleRequest 100).bufValue = 100 ∧
      ¬ Charged sampleParams 100 sampleRequest.cost 100 100 := by
  rw [Charged]
  decide

-- A request of four items is paid for.
theorem charged_handleMsg_affordable :
    Charged sampleParams 100 50 (60 : Fin (2 ^ 64))
      (handleMsg sampleParams (new sampleParams 0) { sampleRequest with amount := 4 } 60).bufValue :=
  (charged_handleMsg_iff (p := sampleParams) (by decide) (new sampleParams 0)
    { sampleRequest with amount := 4 } (by decide)).mpr (by decide) 60

end ClientNode

structure ServerNode where
  bufEstimate : Nat
  lastTime    : Int
  sumCost     : Nat
  pending     : GoMap Nat Nat

namespace ServerNode

def new (time : Int) : ServerNode where
  bufEstimate := p.bufLimit
  lastTime    := time
  sumCost     := 0
  pending     := ∅

def recalcBLE (peer : ServerNode) (time : Int) : ServerNode :=
  { peer with bufEstimate := recharge p peer.bufEstimate peer.lastTime time, lastTime := time }

-- One pass through the loop of `SendRequest`, from where the lock is taken: whether the request is
-- sent, or the lock is released to wait.
def sendRequest (peer : ServerNode) (time : Int) (reqID maxCost : Nat) : ServerNode × Bool :=
  let peer := recalcBLE p peer time
  if peer.bufEstimate < maxCost then (peer, false)
  else
    let sumCost := uint64 (peer.sumCost + maxCost)
    let bufEstimate := sub64 peer.bufEstimate maxCost
    ({ peer with bufEstimate, sumCost, pending := peer.pending.insert reqID sumCost }, true)

def gotReply (peer : ServerNode) (time : Int) (reqID bv : Nat) : ServerNode :=
  match peer.pending.lookup reqID with
  | none    => peer
  | some sc =>
    { peer with
      pending     := peer.pending.erase reqID
      bufEstimate := sub64 bv (sub64 peer.sumCost sc)
      lastTime    := time }

end ServerNode

-- A node with the requests that were sent and their costs, the last one first. `reported` is the
-- value last reported less what was sent after the answered request, as of `since`.
structure Session extends ServerNode where
  sent     : List (Nat × Nat)
  reported : Int
  since    : Int

namespace Session

def new (time : Int) : Session :=
  { ServerNode.new p time with sent := [], reported := p.bufLimit, since := time }

-- What was sent after a request.
def sentAfter (sent : List (Nat × Nat)) (reqID : Nat) : Nat :=
  ((sent.takeWhile (·.fst ≠ reqID)).map Prod.snd).sum

inductive Event
  | send (time : Int) (reqID maxCost : Fin (2 ^ 64))
  | reply (time : Int) (reqID bv : Fin (2 ^ 64))

def Event.time : Event → Int
  | .send time _ _  => time
  | .reply time _ _ => time

def step (s : Session) : Event → Session
  | .send time reqID maxCost =>
    let (peer, sent) := s.sendRequest p time reqID maxCost
    if sent then
      { peer with
        sent     := (reqID, maxCost) :: s.sent
        reported := s.reported - maxCost
        since    := s.since }
    else { s with toServerNode := peer }
  | .reply time reqID bv =>
    let s' := { s with toServerNode := s.gotReply time reqID bv }
    match s.pending.lookup reqID.val with
    | none   => s'
    | some _ => { s' with reported := bv - sentAfter s.sent reqID, since := time }

-- The estimate is within the limit, and within what was reported and recharged since then.
def Bounded (s : Session) : Prop :=
  s.bufEstimate ≤ p.bufLimit ∧
    s.bufEstimate ≤ s.reported + p.minRecharge * (s.lastTime - s.since).toNat / fcTimeConst

-- The server reports no less than what was sent since, and no more than the limit above it.
def Plausible (s : Session) : Event → Prop
  | .send _ _ _       => True
  | .reply _ reqID bv => (s.pending.lookup reqID.val).isSome →
    sentAfter s.sent reqID ≤ bv ∧ bv ≤ p.bufLimit + sentAfter s.sent reqID

inductive Reached : Session → Prop
  | new (time : Int) : Reached (new p time)
  | step {s : Session} {e : Event} (hs : Reached s) (ht : s.lastTime ≤ e.time)
    (he : s.Plausible p e) : Reached (s.step p e)

-- The running sums are exact up to a multiple of `2 ^ 64`.
def Sums (sumCost : Nat) (pending : GoMap Nat Nat) (sent : List (Nat × Nat)) : Prop :=
  ∀ id sc, pending.lookup id = some sc → sc < 2 ^ 64 ∧ sumCost = uint64 (sc + sentAfter sent id)

section

variable {sumCost : Nat} {pending : GoMap Nat Nat} {sent : List (Nat × Nat)} {id : Nat}

theorem Sums.insert (h : Sums sumCost pending sent) (cost : Nat) :
    Sums (uint64 (sumCost + cost)) (pending.insert id (uint64 (sumCost + cost)))
      ((id, cost) :: sent) := by
  intro id' sc hsc
  rcases GoMap.of_lookup_insert hsc with ⟨rfl, rfl⟩ | ⟨hne, hsc⟩
  · exact ⟨uint64_lt _, by simp [sentAfter, uint64]⟩
  · obtain ⟨hlt, rfl⟩ := h id' sc hsc
    have hs : sentAfter ((id, cost) :: sent) id' = cost + sentAfter sent id' := by
      simp [sentAfter, Ne.symm hne]
    simp only [uint64]
    omega

theorem Sums.erase (h : Sums sumCost pending sent) : Sums sumCost (pending.erase id) sent :=
  fun _ _ hsc => h _ _ (GoMap.of_lookup_erase hsc).right

end

structure Inv (s : Session) : Prop where
  bounded : s.Bounded p
  order   : s.since ≤ s.lastTime
  sums    : Sums s.sumCost s.pending s.sent

variable {p} {s : Session} {time : Int} {reqID : Fin (2 ^ 64)}

theorem Inv.recalcBLE (h : s.Inv p) (ht : s.lastTime ≤ time) :
    Inv p { s with toServerNode := s.recalcBLE p time } := by
  refine { h with bounded := ⟨recharge_le_limit, ?_⟩, order := h.order.trans ht }
  have hb := h.bounded.right
  have hr := recharge_le (p := p) s.bufEstimate s.lastTime time
  have hd : (time - s.since).toNat = (s.lastTime - s.since).toNat + (time - s.lastTime).toNat := by
    have := h.order
    omega
  have hdiv := Nat.div_add_div_le_add_div (x := p.minRecharge * (s.lastTime - s.since).toNat)
    (y := p.minRecharge * (time - s.lastTime).toNat) (z := fcTimeConst)
  rw [← mul_add, ← hd] at hdiv
  zify at hr hdiv
  simp only [ServerNode.recalcBLE]
  omega

theorem Inv.send {maxCost : Fin (2 ^ 64)} (h : s.Inv p) (ht : s.lastTime ≤ time) :
    Inv p (s.step p (.send time reqID maxCost)) := by
  have hr := h.recalcBLE ht
  rw [step, ServerNode.sendRequest]
  by_cases hc : (s.recalcBLE p time).bufEstimate < maxCost
  case pos => simpa [hc] using hr
  case neg =>
    simp only [hc, ↓reduceIte]
    obtain ⟨hl, hb⟩ := hr.bounded
    have hs : sub64 (s.recalcBLE p time).bufEstimate maxCost =
        (s.recalcBLE p time).bufEstimate - maxCost := by
      dsimp only at hl
      rw [sub64, uint64]
      omega
    refine ⟨?_, hr.order, hr.sums.insert maxCost⟩
    rw [Bounded]
    dsimp only at hl hb ⊢
    omega

section

variable {bv : Fin (2 ^ 64)}

-- Unsigned, the difference is right exactly if it is not negative.
theorem Inv.bounded_reply_iff (h : s.Inv p) :
    Bounded p (s.step p (.reply time reqID bv)) ↔ s.Plausible p (.reply time reqID bv) := by
  rw [step, ServerNode.gotReply, Plausible]
  cases hsc : s.pending.lookup reqID.val
  case none => exact iff_of_true h.bounded fun h => by cases h
  case some sc =>
    obtain ⟨hlt, hsum⟩ := h.sums _ _ hsc
    have he : sub64 bv (sub64 s.sumCost sc) =
        (bv + 2 ^ 64 - sentAfter s.sent reqID % 2 ^ 64) % 2 ^ 64 := by
      simp only [sub64, uint64] at hsum ⊢
      omega
    simp only [Option.isSome_some, true_implies, Bounded, he, sub_self, Int.toNat_zero,
      Nat.cast_zero, mul_zero, Int.zero_ediv]
    omega

theorem Inv.reply (h : s.Inv p) (he : s.Plausible p (.reply time reqID bv)) :
    Inv p (s.step p (.reply time reqID bv)) := by
  have hb := h.bounded_reply_iff.mpr he
  obtain ⟨⟨_, _, sumCost, pending⟩, sent, _, _⟩ := s
  rw [step, ServerNode.gotReply] at hb ⊢
  cases hsc : pending.lookup reqID.val
  case none   => simpa only [hsc] using h
  case some _ =>
    simp only [hsc] at hb ⊢
    exact ⟨hb, le_refl time, h.sums.erase⟩

end

theorem Reached.inv (h : Reached p s) : s.Inv p := by
  induction h
  case new time =>
    refine ⟨⟨le_rfl, ?_⟩, le_rfl, fun _ _ h => ?_⟩
    · simp [Session.new, ServerNode.new]
    · cases h
  case step s e hs ht he hi =>
    cases e
    case send  => exact hi.send ht
    case reply => exact hi.reply he

-- In every state that plausible reports lead to, a report keeps the estimate bounded exactly if it
-- is plausible, and a request keeps it so in any case.
theorem Reached.bounded_step_iff (h : Reached p s) (e : Event) (ht : s.lastTime ≤ e.time) :
    Bounded p s ∧ (Bounded p (s.step p e) ↔ s.Plausible p e) := by
  refine ⟨h.inv.bounded, ?_⟩
  cases e
  case send  => exact iff_of_true (h.inv.send ht).bounded trivial
  case reply => exact h.inv.bounded_reply_iff

-- Requests of cost 60 and 40 have emptied a buffer of 100.
def sampleSession : Session :=
  ((new ⟨100, 1⟩ 0).step ⟨100, 1⟩ (.send 0 1 60)).step ⟨100, 1⟩ (.send 0 2 40)

theorem sampleSession_reached : Reached ⟨100, 1⟩ sampleSession :=
  .step (.step (.new 0) le_rfl trivial) le_rfl trivial

theorem bounded_step_sampleSession :
    Bounded ⟨100, 1⟩ (sampleSession.step ⟨100, 1⟩ (.reply 0 1 70)) :=
  (sampleSession_reached.bounded_step_iff (.reply 0 1 70) le_rfl).right.mpr
    fun _ => ⟨by decide, by decide⟩

-- The server reports 10 after the first request. The second one has cost 40 since.
theorem gotReply_wraps :
    Reached ⟨100, 1⟩ sampleSession ∧ sampleSession.bufEstimate = 0 ∧
      (sampleSession.gotReply 0 1 10).bufEstimate = 2 ^ 64 - 30 ∧
      ((sampleSession.gotReply 0 1 10).recalcBLE ⟨100, 1⟩ 0).bufEstimate = 100 ∧
      ¬ Bounded ⟨100, 1⟩ (sampleSession.step ⟨100, 1⟩ (.reply 0 1 10)) := by
  refine ⟨sampleSession_reached, by decide, by decide, by decide, fun h => ?_⟩
  exact absurd h.left (by decide)

end Session

end Les
