import GoEthereum.Core.Senders
import GoEthereum.Core.TxList

-- Transactions in a profit-maximising sorted order that honours the nonces of accounts.

namespace Core

open Common

-- The order of `TxByPrice`: the higher price comes first.

instance CachedTx.byPrice : Preorder CachedTx where
  le x y               := y.data.price ≤ x.data.price
  lt x y               := y.data.price < x.data.price
  le_refl _            := Int.le_refl _
  le_trans _ _ _ h h'  := Int.le_trans h' h
  lt_iff_le_not_ge _ _ := Int.lt_iff_le_and_not_ge

instance CachedTx.decidableLT : DecidableLT CachedTx := fun x y =>
  inferInstanceAs (Decidable (y.data.price < x.data.price))

instance CachedTx.total : Std.Total (α := CachedTx) (· ≤ ·) :=
  ⟨fun x y => Int.le_total y.data.price x.data.price⟩

instance CachedTx.inhabited : Inhabited CachedTx :=
  ⟨.fresh ⟨0, 0, 0, none, 0, [], 0, 0, 0⟩⟩

theorem CachedTx.le_iff {x y : CachedTx} : x ≤ y ↔ y.data.price ≤ x.data.price :=
  Iff.rfl

structure TransactionsByPriceAndNonce where
  -- Per account nonce-sorted list of transactions
  txs   : GoMap Address (List CachedTx)
  -- Next transaction for each unique account (price heap)
  heads : List CachedTx

namespace TransactionsByPriceAndNonce

def takeHeads : List (Address × List CachedTx) → GoMap Address (List CachedTx) →
    Calls (GoMap Address (List CachedTx) × List CachedTx)
  | [],                     txs => .ok (txs, [])
  | (_, []) :: _,           _   => Go.panics
  | (acc, tx :: l) :: rest, txs => do
    let (txs, heads) ← takeHeads rest (txs.insert acc l)
    .ok (txs, tx :: heads)

def new (range : GoMap.RangeOrder Address (List CachedTx)) (txs : GoMap Address (List CachedTx)) :
    Calls TransactionsByPriceAndNonce := do
  let (txs, heads) ← takeHeads (range.list txs) txs
  .ok { txs, heads := Heap.init heads }

def peek (t : TransactionsByPriceAndNonce) : Option CachedTx :=
  t.heads.head?

-- Removes the best transaction, *not* replacing it with the next one from the same account.
def pop (t : TransactionsByPriceAndNonce) : Calls TransactionsByPriceAndNonce :=
  if t.heads = [] then Go.panics else .ok { t with heads := (Heap.pop t.heads).snd }

-- Replaces the current best head with the next one from the same account.
def shift {Key : Type} (C : Crypto Key) (t : TransactionsByPriceAndNonce) :
    Calls TransactionsByPriceAndNonce :=
  match t.heads with
  | []      => Go.panics
  | tx :: _ =>
    match (sender C (deriveSigner tx.data.v) tx).fst with
    | .error .panic => Go.panics
    | r             =>
      -- we only sort valid txs so this cannot fail
      let acc := r.toOption.getD Address.zero
      match t.txs.lookup acc with
      | some (next :: rest) =>
        .ok { txs := t.txs.insert acc rest, heads := Heap.fix (t.heads.set 0 next) 0 }
      | _                   => .ok { t with heads := (Heap.pop t.heads).snd }

end TransactionsByPriceAndNonce

section

variable {Key : Type} {C : Crypto Key} {tx : Transaction} {a : Address}

def Transaction.signer (tx : Transaction) : Signer :=
  if tx.protected_ then newEIP155Signer tx.chainId else .frontier

def account (C : Crypto Key) (tx : Transaction) : Go SigError Address :=
  (tx.signer.publicKey C tx).map (pubkeyAddress C)

-- The transactions whose sender the derived signer finds: an EIP155 signer has found it before, or
-- the signature has no protection and is one by the homestead rules.
def CachedTx.Settled (tx : CachedTx) : Prop :=
  if tx.data.protected_ then
    ∃ mul addr, tx.from_ = some (.eip155 tx.data.chainId mul, addr)
  else
    tx.data.s ≤ curveHalfN

theorem recoverKey_homestead {hash : Hash} {v : UInt8} {r s : Int} (h : s ≤ curveHalfN) :
    recoverKey C hash v r s true = recoverKey C hash v r s false := by
  have hv : validateSignatureValues v r s true = validateSignatureValues v r s false := by
    rw [validateSignatureValues, validateSignatureValues]
    simp [not_lt.mpr h]
  rw [recoverKey, recoverKey, hv]

theorem bitLen_pos_of_account (hp : tx.protected_ = true) (h : account C tx = .ok a) :
    0 < bitLen tx.v := by
  rw [bitLen_pos]
  intro hv
  have hn : normaliseV (newEIP155Signer (deriveChainId 0)) 0 = .ok 212 := by decide +kernel
  have hr : ∀ hash, recoverKey C hash 212 tx.r tx.s true = Go.fail .invalidSig := by
    intro hash
    rw [recoverKey, if_pos]
    intro hval
    rw [validateSignatureValues] at hval
    split_ifs at hval
    exact absurd (of_decide_eq_true hval).right (by decide)
  rw [account, Transaction.signer, if_pos hp, newEIP155Signer, publicKey_protected hp rfl,
    Transaction.chainId, hv] at h
  rw [newEIP155Signer] at hn
  rw [hn, Go.ok_bind, hr] at h
  cases h

theorem sender_of_settled {tx : CachedTx} (hs : tx.Sound C) (ha : account C tx.data = .ok a)
    (h : tx.Settled) : (sender C (deriveSigner tx.data.v) tx).fst = .ok a := by
  rw [CachedTx.Settled] at h
  cases hp : tx.data.protected_
  case false =>
    have hd : deriveSigner tx.data.v = .homestead :=
      if_neg fun hb => Bool.false_ne_true (hp.symm.trans hb.right)
    rw [if_neg (by rw [hp]; exact Bool.false_ne_true)] at h
    rw [account, Transaction.signer, if_neg (by rw [hp]; exact Bool.false_ne_true)] at ha
    have hstep := @sender_step Key C .homestead tx hs trivial id
    rw [hd, hstep.left, sender_fresh, ← ha]
    rw [Signer.publicKey, Signer.publicKey, plainPublicKey, plainPublicKey, recoverKey_homestead h]
  case true =>
    have hd : deriveSigner tx.data.v = .eip155 tx.data.chainId none :=
      if_pos ⟨bitLen_pos_of_account hp ha, hp⟩
    rw [if_pos hp] at h
    obtain ⟨mul, addr, hf⟩ := h
    obtain ⟨hm, hk⟩ := hs _ _ hf
    have hx : sender C (deriveSigner tx.data.v) tx = (.ok addr, tx) := by
      rw [sender, hf, hd]
      exact if_pos (decide_eq_true rfl)
    have hc : (Signer.eip155 tx.data.chainId mul).publicKey C tx.data =
        tx.data.signer.publicKey C tx.data := by
      rw [Transaction.signer, if_pos hp]
      apply publicKey_congr hm (Signer.newEIP155Signer_made _) (decide_eq_true rfl)
      · rw [← @publicKey_panics_iff _ C]
        intro hpan
        rw [hpan] at hk
        cases hk
      · exact id
    rw [hx, ← hk, hc]
    exact ha

end

namespace TransactionsByPriceAndNonce

-- What remains of the lists of the accounts, with the transaction in the heap first.
abbrev Queues := Address → List CachedTx

section

variable {Key : Type} {C : Crypto Key} {accs : List Address} {q : Queues} {a : Address}
variable {t : TransactionsByPriceAndNonce} {tx : CachedTx}

-- The accounts are those of the map. An account without a queue can have a rest in the map.
structure Represents (C : Crypto Key) (accs : List Address) (t : TransactionsByPriceAndNonce)
    (q : Queues) : Prop where
  nodup  : accs.Nodup
  heads  : t.heads.Perm (accs.filterMap fun a => (q a).head?)
  heap   : Heap.IsHeap t.heads
  txs    : ∀ a, q a ≠ [] → a ∈ accs ∧ t.txs.lookup a = some (q a).tail
  signed : ∀ a, ∀ tx ∈ q a, tx.Sound C ∧ account C tx.data = .ok a

-- A transaction of maximal gas price among the first ones of all queues.
structure Best (q : Queues) (a : Address) (tx : CachedTx) : Prop where
  first : (q a).head? = some tx
  price : ∀ b tx', (q b).head? = some tx' → tx'.data.price ≤ tx.data.price

section

variable (h : Represents C accs t q)
include h

theorem Represents.mem_heads :
    tx ∈ t.heads ↔ ∃ a, (q a).head? = some tx := by
  rw [h.heads.mem_iff, List.mem_filterMap]
  constructor
  · rintro ⟨a, -, ha⟩
    exact ⟨a, ha⟩
  · rintro ⟨a, ha⟩
    exact ⟨a, (h.txs a (List.ne_nil_of_mem (List.mem_of_mem_head? ha))).left, ha⟩

theorem Represents.best (hp : t.peek = some tx) :
    ∃ a, Best q a tx ∧ account C tx.data = .ok a := by
  obtain ⟨a, ha⟩ := h.mem_heads.mp (List.mem_of_mem_head? hp)
  refine ⟨a, ⟨ha, fun b tx' hb => ?_⟩, (h.signed a tx (List.mem_of_mem_head? ha)).right⟩
  have hle := h.heap.front_le (h.mem_heads.mpr ⟨b, hb⟩)
  obtain ⟨l, hl⟩ := List.head?_eq_some_iff.mp hp
  rw [hl] at hle
  exact CachedTx.le_iff.mp hle

theorem Represents.nil (hp : t.peek = none) (a : Address) :
    q a = [] := by
  by_contra hq
  obtain ⟨tx, l, hl⟩ := List.exists_cons_of_ne_nil hq
  have := h.mem_heads.mpr ⟨a, show (q a).head? = some tx by rw [hl]; rfl⟩
  rw [List.head?_eq_none_iff.mp hp] at this
  cases this

end

theorem filterMap_update (hn : accs.Nodup) (ha : a ∈ accs) (l : List CachedTx) :
    (accs.filterMap fun b => (Function.update q a l b).head?).Perm
      (l.head?.toList ++ (accs.erase a).filterMap fun b => (q b).head?) := by
  have hp := (List.perm_cons_erase ha).filterMap fun b => (Function.update q a l b).head?
  have hr : (accs.erase a).filterMap (fun b => (Function.update q a l b).head?) =
      (accs.erase a).filterMap fun b => (q b).head? := by
    apply List.filterMap_congr
    intro b hb
    rw [Function.update_of_ne ((List.Nodup.mem_erase_iff hn).mp hb).left]
  refine hp.trans ?_
  rw [List.filterMap_cons, Function.update_self, hr]
  cases l <;> exact List.Perm.refl _

theorem Represents.rest (h : Represents C accs t q) (hb : (q a).head? = some tx)
    (hp : t.peek = some tx) :
    ∃ hs, t.heads = tx :: hs ∧ a ∈ accs ∧
      hs.Perm ((accs.erase a).filterMap fun b => (q b).head?) := by
  obtain ⟨hs, he⟩ := List.head?_eq_some_iff.mp hp
  have ha := (h.txs a (List.ne_nil_of_mem (List.mem_of_mem_head? hb))).left
  have hu := @filterMap_update accs q a h.nodup ha (q a)
  rw [Function.update_eq_self, hb] at hu
  refine ⟨hs, he, ha, List.Perm.cons_inv (he ▸ h.heads.trans hu)⟩

theorem Represents.update (h : Represents C accs t q) (hb : (q a).head? = some tx)
    (hp : t.peek = some tx) {l : List CachedTx} (hl : l <:+ q a) {t' : TransactionsByPriceAndNonce}
    (hh : t'.heads.Perm (l.head?.toList ++ t.heads.tail)) (hheap : Heap.IsHeap t'.heads)
    (ht : ∀ b, b ≠ a → t'.txs.lookup b = t.txs.lookup b)
    (hta : l ≠ [] → t'.txs.lookup a = some l.tail) :
    Represents C accs t' (Function.update q a l) := by
  obtain ⟨hs, he, ha, hr⟩ := h.rest hb hp
  constructor
  case nodup => exact h.nodup
  case heap  => exact hheap
  case heads =>
    rw [he] at hh
    exact hh.trans ((hr.append_left _).trans (filterMap_update h.nodup ha l).symm)
  case txs =>
    intro b hne
    by_cases hba : b = a
    · subst hba
      rw [Function.update_self] at hne ⊢
      exact ⟨ha, hta hne⟩
    · rw [Function.update_of_ne hba] at hne ⊢
      rw [ht b hba]
      exact h.txs b hne
  case signed =>
    intro b tx hm
    by_cases hba : b = a
    · subst hba
      rw [Function.update_self] at hm
      exact h.signed b tx (hl.mem hm)
    · rw [Function.update_of_ne hba] at hm
      exact h.signed b tx hm

variable {hs : List CachedTx}

theorem pop_heads (h : Heap.IsHeap (tx :: hs)) :
    (Heap.pop (tx :: hs)).snd.Perm hs ∧ Heap.IsHeap (Heap.pop (tx :: hs)).snd := by
  obtain ⟨hf, hp, hh⟩ := Heap.pop_spec h (List.cons_ne_nil _ _)
  rw [hf] at hp
  exact ⟨(List.Perm.cons_inv hp).symm, hh⟩

theorem Represents.pop (h : Represents C accs t q) (hb : (q a).head? = some tx)
    (hp : t.peek = some tx) :
    ∃ t', t.pop = .ok t' ∧ Represents C accs t' (Function.update q a []) := by
  obtain ⟨hs, he, -, -⟩ := h.rest hb hp
  obtain ⟨hpop, hheap⟩ := pop_heads (he ▸ h.heap)
  refine ⟨{ t with heads := (Heap.pop t.heads).snd }, ?_, ?_⟩
  · exact if_neg (he ▸ List.cons_ne_nil _ _)
  · apply h.update hb hp List.nil_suffix
    · rw [he]
      exact hpop
    · rw [he]
      exact hheap
    · exact fun _ _ => rfl
    · exact fun hne => absurd rfl hne

theorem shift_panics (he : t.heads = tx :: hs)
    (hs : (sender C (deriveSigner tx.data.v) tx).fst = Go.panics) : t.shift C = Go.panics := by
  simp only [TransactionsByPriceAndNonce.shift, he, hs, Go.panics]

theorem shift_next {hs rest : List CachedTx} {next : CachedTx} (he : t.heads = tx :: hs)
    (hs : (sender C (deriveSigner tx.data.v) tx).fst = .ok a)
    (hl : t.txs.lookup a = some (next :: rest)) :
    t.shift C =
      .ok { txs := t.txs.insert a rest, heads := Heap.fix (t.heads.set 0 next) 0 } := by
  simp only [TransactionsByPriceAndNonce.shift, he, hs, Except.toOption, Option.getD_some, hl]

theorem shift_last (he : t.heads = tx :: hs)
    (hs : (sender C (deriveSigner tx.data.v) tx).fst = .ok a) (hl : t.txs.lookup a = some []) :
    t.shift C = .ok { t with heads := (Heap.pop t.heads).snd } := by
  simp only [TransactionsByPriceAndNonce.shift, he, hs, Except.toOption, Option.getD_some, hl]

theorem Represents.shift (h : Represents C accs t q) (hb : (q a).head? = some tx)
    (hp : t.peek = some tx) (hset : tx.Settled) :
    ∃ t', t.shift C = .ok t' ∧ Represents C accs t' (Function.update q a (q a).tail) := by
  obtain ⟨hs, he, -, -⟩ := h.rest hb hp
  have hmem := List.mem_of_mem_head? hb
  obtain ⟨hsound, hacc⟩ := h.signed a tx hmem
  have hsend := sender_of_settled hsound hacc hset
  obtain ⟨-, hl⟩ := h.txs a (List.ne_nil_of_mem hmem)
  cases hq : (q a).tail
  case nil =>
    rw [hq] at hl
    obtain ⟨hpop, hheap⟩ := pop_heads (he ▸ h.heap)
    refine ⟨_, shift_last he hsend hl, h.update hb hp List.nil_suffix ?_ ?_ ?_ ?_⟩
    · rw [he]
      exact hpop
    · rw [he]
      exact hheap
    · exact fun _ _ => rfl
    · exact fun hne => absurd rfl hne
  case cons next rest =>
    rw [hq] at hl
    have hlen : 0 < t.heads.length := by rw [he]; exact Nat.succ_pos _
    obtain ⟨hperm, hheap⟩ := Heap.fix_spec h.heap hlen next
    refine ⟨_, shift_next he hsend hl, h.update hb hp (hq ▸ List.tail_suffix _) ?_ hheap ?_ ?_⟩
    · rw [he] at hperm ⊢
      exact hperm
    · intro b hba
      exact AList.lookup_insert_ne hba
    · intro _
      exact AList.lookup_insert _

end

section

inductive Call
  | peek
  | shift
  | pop
  deriving DecidableEq

variable {Key : Type} (C : Crypto Key)

def exec (t : TransactionsByPriceAndNonce) : Call → Calls TransactionsByPriceAndNonce
  | .peek  => .ok t
  | .shift => t.shift C
  | .pop   => t.pop

-- The calls of a run, each with the transaction that is the best one before it.
def run : List Call → TransactionsByPriceAndNonce →
    Calls (List (Call × Option CachedTx) × TransactionsByPriceAndNonce)
  | [],          t => .ok ([], t)
  | c :: calls, t => do
    let t' ← t.exec C c
    let (log, t'') ← run calls t'
    .ok ((c, t.peek) :: log, t'')

-- There is a transaction to shift or to pop, and its sender is found when it is shifted.
def Ready (t : TransactionsByPriceAndNonce) : Call → Prop
  | .peek  => True
  | .shift => ∃ tx, t.peek = some tx ∧ tx.Settled
  | .pop   => ∃ tx, t.peek = some tx

def AllReady : List Call → TransactionsByPriceAndNonce → Prop
  | [],         _ => True
  | c :: calls, t => t.Ready c ∧ ∀ t', t.exec C c = .ok t' → AllReady calls t'

-- What a call leaves of the queues: the account of the best transaction moves on, or is dropped.
def Queues.advance (q : Queues) : Call × Option CachedTx → Queues
  | (.shift, some tx) => fun a => if account C tx.data = .ok a then (q a).tail else q a
  | (.pop, some tx)   => fun a => if account C tx.data = .ok a then [] else q a
  | _                 => q

def Queues.after (q : Queues) (log : List (Call × Option CachedTx)) : Queues :=
  log.foldl (Queues.advance C) q

-- The transactions of an account that have been shifted or popped.
def passed (a : Address) (log : List (Call × Option CachedTx)) : List CachedTx :=
  log.filterMap fun (c, tx?) => tx?.filter fun tx => c ≠ .peek ∧ account C tx.data = .ok a

def Popped (a : Address) (log : List (Call × Option CachedTx)) : Prop :=
  ∃ tx, (Call.pop, some tx) ∈ log ∧ account C tx.data = .ok a

variable {C} {accs : List Address} {q : Queues} {a : Address} {t : TransactionsByPriceAndNonce}
variable {tx : CachedTx} {log : List (Call × Option CachedTx)} {c : Call}

section

variable (h : account C tx.data = .ok a)
include h

theorem ite_account {l : List CachedTx} :
    (fun b => if account C tx.data = .ok b then l else q b) = Function.update q a l := by
  funext b
  by_cases hba : b = a
  · rw [hba, if_pos h, Function.update_self]
  · rw [if_neg, Function.update_of_ne hba]
    rw [h]
    exact fun he => hba (Except.ok.inj he).symm

theorem Queues.advance_shift :
    q.advance C (.shift, some tx) = Function.update q a (q a).tail := by
  rw [← ite_account h, Queues.advance]
  funext b
  by_cases hb : account C tx.data = .ok b
  · rw [if_pos hb, if_pos hb, Except.ok.inj (h.symm.trans hb)]
  · rw [if_neg hb, if_neg hb]

theorem Queues.advance_pop :
    q.advance C (.pop, some tx) = Function.update q a [] :=
  ite_account h

end

theorem Represents.exec (h : Represents C accs t q) (hr : t.Ready c) :
    ∃ t', t.exec C c = .ok t' ∧ Represents C accs t' (q.advance C (c, t.peek)) := by
  cases c
  case peek => exact ⟨t, rfl, h⟩
  case shift =>
    obtain ⟨tx, hp, hset⟩ := hr
    obtain ⟨a, hb, ha⟩ := h.best hp
    rw [hp, Queues.advance_shift ha]
    exact h.shift hb.first hp hset
  case pop =>
    obtain ⟨tx, hp⟩ := hr
    obtain ⟨a, hb, ha⟩ := h.best hp
    rw [hp, Queues.advance_pop ha]
    exact h.pop hb.first hp

structure Served (C : Crypto Key) (q : Queues) (log : List (Call × Option CachedTx))
    (a : Address) : Prop where
  seen   : passed C a log <+: q a
  rest   : ¬ Popped C a log → passed C a log ++ q.after C log a = q a
  popped : Popped C a log → q.after C log a = []

theorem passed_cons_of_mem (hc : c ≠ .peek) (ha : account C tx.data = .ok a) :
    passed C a ((c, some tx) :: log) = tx :: passed C a log :=
  List.filterMap_cons_some (by simp [Option.filter, hc, ha])

variable {tx? : Option CachedTx}

section

variable (h : ∀ tx, tx? = some tx → c ≠ .peek → account C tx.data ≠ .ok a)
include h

theorem passed_cons_of_not :
    passed C a ((c, tx?) :: log) = passed C a log := by
  cases tx?
  case none    => rfl
  case some tx =>
    apply List.filterMap_cons_none
    simp only [Option.filter, decide_eq_true_eq]
    exact if_neg fun hc => h tx rfl hc.left hc.right

theorem advance_of_not :
    q.advance C (c, tx?) a = q a := by
  cases c <;> cases tx? <;> try rfl
  case shift.some tx => exact if_neg (h tx rfl (by decide))
  case pop.some tx   => exact if_neg (h tx rfl (by decide))

end

theorem Served.cons (h : Served C (q.advance C (c, tx?)) log a)
    (hb : ∀ tx, tx? = some tx → c ≠ .peek → account C tx.data = .ok a → (q a).head? = some tx) :
    Served C q ((c, tx?) :: log) a := by
  by_cases hm : ∃ tx, tx? = some tx ∧ c ≠ .peek ∧ account C tx.data = .ok a
  · obtain ⟨tx, rfl, hc, ha⟩ := hm
    obtain ⟨l, hq⟩ := List.head?_eq_some_iff.mp (hb tx rfl hc ha)
    have hp := @passed_cons_of_mem _ C a tx log c hc ha
    cases c
    case peek => exact absurd rfl hc
    case shift =>
      have hadv : q.advance C (.shift, some tx) a = l := by
        rw [Queues.advance_shift ha, Function.update_self, hq, List.tail_cons]
      constructor
      case seen =>
        rw [hp, hq, ← hadv]
        exact List.cons_prefix_cons.mpr ⟨rfl, h.seen⟩
      case rest =>
        intro hn
        rw [hp, hq, ← hadv]
        refine congrArg _ (h.rest fun hpop => hn ?_)
        obtain ⟨tx', hm, ha'⟩ := hpop
        exact ⟨tx', List.mem_cons_of_mem _ hm, ha'⟩
      case popped =>
        rintro ⟨tx', hm, ha'⟩
        obtain he | hm := List.mem_cons.mp hm
        · cases he
        · exact h.popped ⟨tx', hm, ha'⟩
    case pop =>
      have hadv : q.advance C (.pop, some tx) a = [] := by
        rw [Queues.advance_pop ha, Function.update_self]
      have hnil : passed C a log = [] := List.prefix_nil.mp (hadv ▸ h.seen)
      constructor
      case seen =>
        rw [hp, hq, hnil]
        exact List.cons_prefix_cons.mpr ⟨rfl, List.nil_prefix⟩
      case rest => exact fun hn => absurd ⟨tx, List.mem_cons_self, ha⟩ hn
      case popped =>
        intro _
        by_cases hpop : Popped C a log
        · exact h.popped hpop
        · have := h.rest hpop
          rw [hadv, hnil] at this
          exact this
  · have hn : ∀ tx, tx? = some tx → c ≠ .peek → account C tx.data ≠ .ok a :=
      fun tx he hc ha => hm ⟨tx, he, hc, ha⟩
    have hpop : Popped C a ((c, tx?) :: log) ↔ Popped C a log := by
      constructor
      · rintro ⟨tx, hmem, ha⟩
        obtain he | hmem := List.mem_cons.mp hmem
        · cases he
          exact absurd ha (hn tx rfl (by decide))
        · exact ⟨tx, hmem, ha⟩
      · rintro ⟨tx, hmem, ha⟩
        exact ⟨tx, List.mem_cons_of_mem _ hmem, ha⟩
    have hadv := @advance_of_not _ C q a c tx? hn
    constructor
    case seen =>
      rw [passed_cons_of_not hn, ← hadv]
      exact h.seen
    case rest =>
      rw [hpop, passed_cons_of_not hn, ← hadv]
      exact h.rest
    case popped =>
      rw [hpop]
      exact h.popped

theorem Represents.run {calls : List Call} (h : Represents C accs t q) (hr : t.AllReady C calls) :
    ∃ log t', TransactionsByPriceAndNonce.run C calls t = .ok (log, t') ∧
      log.map Prod.fst = calls ∧ Represents C accs t' (q.after C log) ∧ ∀ a, Served C q log a := by
  induction calls generalizing t q
  case nil =>
    refine ⟨[], t, rfl, rfl, h, fun a => ⟨List.nil_prefix, fun _ => rfl, ?_⟩⟩
    rintro ⟨tx, hm, -⟩
    cases hm
  case cons c calls hi =>
    obtain ⟨hc, hall⟩ := hr
    obtain ⟨t₁, he, h₁⟩ := h.exec hc
    obtain ⟨log, t', hrun, hcalls, h', hserved⟩ := hi h₁ (hall t₁ he)
    refine ⟨(c, t.peek) :: log, t', ?_, by rw [List.map_cons, hcalls], h', fun a => ?_⟩
    · rw [TransactionsByPriceAndNonce.run, he, Go.ok_bind, hrun]
      rfl
    · apply (hserved a).cons
      intro tx hp _ ha
      obtain ⟨b, hb, hb'⟩ := h.best hp
      obtain rfl := Except.ok.inj (hb'.symm.trans ha)
      exact hb.first

end

section

variable {Key : Type} {C : Crypto Key}

def queues (txs : GoMap Address (List CachedTx)) : Queues :=
  fun a => (txs.lookup a).getD []

theorem takeHeads_spec {l : List (Address × List CachedTx)} {txs : GoMap Address (List CachedTx)}
    (hn : (l.map Prod.fst).Nodup) (hne : ∀ e ∈ l, e.snd ≠ []) :
    ∃ txs', takeHeads l txs =
        .ok (txs', l.filterMap fun e => e.snd.head?) ∧
      (∀ e ∈ l, txs'.lookup e.fst = some e.snd.tail) ∧
      ∀ a ∉ l.map Prod.fst, txs'.lookup a = txs.lookup a := by
  induction l generalizing txs
  case nil => exact ⟨txs, rfl, by simp, fun _ _ => rfl⟩
  case cons e l hi =>
    obtain ⟨acc, accTxs⟩ := e
    obtain ⟨hne₁, hne₂⟩ := List.forall_mem_cons.mp hne
    obtain ⟨tx, rest, rfl⟩ := List.exists_cons_of_ne_nil hne₁
    rw [List.map_cons, List.nodup_cons] at hn
    obtain ⟨txs', he, hin, hout⟩ := @hi (txs.insert acc rest) hn.right hne₂
    refine ⟨txs', ?_, List.forall_mem_cons.mpr ⟨?_, hin⟩, fun a ha => ?_⟩
    · rw [takeHeads, he]
      rfl
    · rw [hout acc hn.left, AList.lookup_insert]
      rfl
    · rw [List.map_cons, List.mem_cons, not_or] at ha
      rw [hout a ha.right, AList.lookup_insert_ne ha.left]

theorem exists_new (range : GoMap.RangeOrder Address (List CachedTx))
    (txs : GoMap Address (List CachedTx)) (hne : ∀ a l, txs.lookup a = some l → l ≠ [])
    (hs : ∀ a l, txs.lookup a = some l → ∀ tx ∈ l, tx.Sound C ∧ account C tx.data = .ok a) :
    ∃ t, new range txs = .ok t ∧
      Represents C ((range.list txs).map Prod.fst) t (queues txs) := by
  have hmem : ∀ e ∈ range.list txs, txs.lookup e.fst = some e.snd :=
    fun e he => range.mem_list.mp he
  obtain ⟨txs', he, hin, -⟩ := @takeHeads_spec _ txs (range.nodup_fst txs)
    fun e he => hne _ _ (hmem e he)
  obtain ⟨hperm, hheap⟩ := Heap.init_spec ((range.list txs).filterMap fun e => e.snd.head?)
  refine ⟨⟨txs', Heap.init ((range.list txs).filterMap fun e => e.snd.head?)⟩, ?_, ?_⟩
  · rw [new, he]
    rfl
  · constructor
    case nodup => exact range.nodup_fst txs
    case heap  => exact hheap
    case heads =>
      rw [List.filterMap_map]
      refine hperm.trans (List.Perm.of_eq (List.filterMap_congr fun e he => ?_))
      rw [Function.comp_apply, queues, hmem e he]
      rfl
    case txs =>
      intro a hq
      cases hl : txs.lookup a
      case none => exact absurd (by rw [queues, hl]; rfl) hq
      case some l =>
        have ha := range.mem_list.mpr hl
        rw [queues, hl]
        exact ⟨List.mem_map_of_mem ha, hin _ ha⟩
    case signed =>
      intro a tx hm
      cases hl : txs.lookup a
      case none =>
        rw [queues, hl] at hm
        cases hm
      case some l =>
        rw [queues, hl] at hm
        exact hs a l hl tx hm

end

-- The order in which the entries were added, the last one first.
def entriesOrder : GoMap.RangeOrder Address (List CachedTx) where
  list m := m.entries.map fun e => (e.fst, e.snd)
  perm _ := List.Perm.refl _

def sampleAccount : Address :=
  pubkeyAddress sampleCrypto (samplePub true)

def sampleTxs (v : Int) : GoMap Address (List CachedTx) :=
  AList.insert sampleAccount [.fresh (signedTx v)] ∅

theorem recoverKey_sample (hash : Hash) (homestead : Bool) :
    recoverKey sampleCrypto hash 27 1 1 homestead = .ok (samplePub true) := by
  have h := @recoverKey_eq Bool sampleCrypto samplePub true hash 1 1 0 (by decide) (by decide)
    (Or.inl rfl) rfl rfl
  cases homestead
  · exact (recoverKey_homestead (by decide)).symm.trans h
  · exact h

theorem account_unprotected : account sampleCrypto (signedTx 27) = .ok sampleAccount := by
  have hp : (signedTx 27).protected_ = false := by decide +kernel
  have hb : ¬ 8 < bitLen (signedTx 27).v := by decide +kernel
  rw [account, Transaction.signer, if_neg (by exact Bool.false_ne_true), Signer.publicKey,
    plainPublicKey, if_neg hb]
  exact congrArg (Except.map _) (recoverKey_sample _ false)

theorem account_protected : account sampleCrypto (signedTx 37) = .ok sampleAccount := by
  have hp : (signedTx 37).protected_ = true := by decide +kernel
  have hc : (signedTx 37).chainId = 1 := by decide +kernel
  have hn : normaliseV (.eip155 1 (some (1 * 2))) (signedTx 37).v = .ok 27 :=
    @normaliseV_protectedV 1 0 (by decide) (Or.inl rfl)
  rw [account, Transaction.signer, if_pos hp, hc, newEIP155Signer, publicKey_protected hp hc, hn,
    Go.ok_bind]
  exact congrArg (Except.map _) (recoverKey_sample _ true)

variable {v : Int}

theorem sampleTxs_lookup {a : Address} {l : List CachedTx}
    (h : (sampleTxs v).lookup a = some l) : a = sampleAccount ∧ l = [.fresh (signedTx v)] := by
  rw [sampleTxs, GoMap.lookup_insert_eq_ite] at h
  split_ifs at h with ha
  · exact ⟨ha, (Option.some.inj h).symm⟩
  · cases h

section

variable (hv : account sampleCrypto (signedTx v) = .ok sampleAccount)
include hv

theorem sampleTxs_sound
    (a : Address) (l : List CachedTx) (h : (sampleTxs v).lookup a = some l) :
    l ≠ [] ∧ ∀ tx ∈ l, tx.Sound sampleCrypto ∧ account sampleCrypto tx.data = .ok a := by
  obtain ⟨rfl, rfl⟩ := sampleTxs_lookup h
  refine ⟨List.cons_ne_nil _ _, fun tx hm => ?_⟩
  obtain rfl := List.mem_singleton.mp hm
  exact ⟨CachedTx.fresh_sound _, hv⟩

theorem peek_sample {t : TransactionsByPriceAndNonce}
    (h : new entriesOrder (sampleTxs v) = .ok t) :
    t.peek = some (.fresh (signedTx v)) := by
  have hs := sampleTxs_sound hv
  obtain ⟨t', ht', hr⟩ := @exists_new _ sampleCrypto entriesOrder (sampleTxs v)
    (fun a l hl => (hs a l hl).left) fun a l hl => (hs a l hl).right
  obtain rfl := Except.ok.inj (ht'.symm.trans h)
  have hq : queues (sampleTxs v) sampleAccount = [.fresh (signedTx v)] := by
    rfl
  cases hp : t'.peek
  case none =>
    have := hr.nil hp sampleAccount
    cases this
  case some tx =>
    obtain ⟨a, hb, -⟩ := hr.best hp
    have hm := List.mem_of_mem_head? hb.first
    rw [queues] at hm
    cases hl : (sampleTxs v).lookup a
    case none =>
      rw [hl] at hm
      cases hm
    case some l =>
      obtain ⟨-, rfl⟩ := sampleTxs_lookup hl
      rw [hl] at hm
      rw [List.mem_singleton.mp hm]

end

end TransactionsByPriceAndNonce

end Core
