import GoEthereum.Core.HeaderRun
import GoEthereum.Eth.Filter

-- What a filter finds.

namespace Core

open Common

namespace Bloom

variable {H : Hashes} {b c x : Bloom} {t : Bytes}

def Covers (b x : Bloom) : Prop :=
  b &&& x = x

theorem bloomLookup_iff : bloomLookup H b t ↔ b.Covers (bloom9 H t) := by
  simp [bloomLookup, Covers]

theorem Covers.or_left (h : b.Covers x) : (b ||| c).Covers x := by
  rw [← h]
  ext i
  simp only [BitVec.getElem_and, BitVec.getElem_or]
  cases b[i] <;> simp

theorem covers_or_right : (b ||| x).Covers x := by
  ext i
  simp only [BitVec.getElem_and, BitVec.getElem_or]
  cases x[i] <;> simp

section

variable {α : Type} {f : Bloom → α → Bloom} {l : List α}

variable (hf : ∀ {b a}, b.Covers x → (f b a).Covers x)
include hf

theorem Covers.foldl {b : Bloom} (h : b.Covers x) :
    Covers (l.foldl f b) x := by
  induction l generalizing b
  case nil       => exact h
  case cons hi   => exact hi (hf h)

theorem covers_foldl {b : Bloom} {a : α} (ha : a ∈ l)
    (h : ∀ b, (f b a).Covers x) : Covers (l.foldl f b) x := by
  induction l generalizing b
  case nil => cases ha
  case cons a' l hi =>
    rw [List.foldl_cons]
    cases ha
    case head    => exact Covers.foldl hf (h b)
    case tail ha => exact hi ha

end

variable {logs : List State.Log} {log : State.Log} {receipts : List Receipt}

theorem Covers.addTopics {topics : List Hash} (h : b.Covers x) :
    Covers (topics.foldl (fun bin topic => bin ||| bloom9 H topic.bytes) b) x :=
  h.foldl Covers.or_left

theorem logsBloom_address (h : log ∈ logs) :
    (logsBloom H logs).Covers (bloom9 H log.address.val) :=
  covers_foldl (fun h => h.or_left.addTopics) h fun _ => covers_or_right.addTopics

theorem logsBloom_topic (h : log ∈ logs) {topic : Hash} (ht : topic ∈ log.topics) :
    (logsBloom H logs).Covers (bloom9 H topic.bytes) :=
  covers_foldl (fun h => h.or_left.addTopics) h fun _ =>
    covers_foldl Covers.or_left ht fun _ => covers_or_right

theorem createBloom_covers {r : Receipt} (hr : r ∈ receipts) (h : (logsBloom H r.logs).Covers x) :
    (createBloom H receipts).Covers x :=
  covers_foldl Covers.or_left hr fun b => by
    rw [BitVec.or_comm]
    exact h.or_left

end Bloom

end Core

namespace Filters

open Common Core

-- What a filter asks of a log: one of the addresses, if there are any, and at every position of the
-- topics one of the alternatives. The zero hash stands for any topic.
structure Matches (addresses : List Address) (topics : List (List Hash)) (log : Log) : Prop where
  address : addresses = [] ∨ log.address ∈ addresses
  topics  : ∀ {i : Nat} {alternatives : List Hash}, topics[i]? = some alternatives →
    ∃ topic, log.topics[i]? = some topic ∧ ∃ t ∈ alternatives, t = Hash.zero ∨ topic = t

section

variable {H : Hashes} {addresses : List Address} {topics : List (List Hash)} {log : Log}

theorem matchTopics_iff : matchTopics topics log ↔
    ∀ {i : Nat} {alternatives : List Hash}, topics[i]? = some alternatives →
      ∃ topic, log.topics[i]? = some topic ∧ ∃ t ∈ alternatives, t = Hash.zero ∨ topic = t := by
  simp only [matchTopics, Bool.and_eq_true, decide_eq_true_eq, List.all_eq_true, List.any_eq_true,
    Bool.or_eq_true]
  constructor
  case mp =>
    rintro ⟨hl, hz⟩ i alternatives hi
    have hlt : i < log.topics.length := lt_of_lt_of_le (List.getElem?_eq_some_iff.mp hi).choose hl
    refine ⟨log.topics[i], List.getElem?_eq_getElem hlt, hz (alternatives, log.topics[i]) ?_⟩
    exact List.mem_of_getElem? (List.getElem?_zip_eq_some.mpr ⟨hi, List.getElem?_eq_getElem hlt⟩)
  case mpr =>
    intro h
    refine ⟨?_, fun p hp => ?_⟩
    case refine_1 =>
      by_contra hlt
      obtain ⟨_, hn, -⟩ := h (List.getElem?_eq_getElem (not_le.mp hlt))
      simp at hn
    case refine_2 =>
      obtain ⟨i, hi⟩ := List.mem_iff_getElem?.mp hp
      obtain ⟨ha, ht⟩ := List.getElem?_zip_eq_some.mp hi
      obtain ⟨topic, ht', hm⟩ := h ha
      rw [ht] at ht'
      cases ht'
      exact hm

theorem matches_iff : Matches addresses topics log ↔
    (!(addresses ≠ [] ∧ !includes addresses log.address) && matchTopics topics log) := by
  constructor
  case mp =>
    intro h
    have ha := h.address
    simp only [includes, matchTopics_iff.mpr h.topics, Bool.and_true]
    simpa using ha
  case mpr =>
    intro h
    obtain ⟨ha, ht⟩ := Bool.and_eq_true_iff.mp h
    exact ⟨by simpa [includes] using ha, matchTopics_iff.mp ht⟩

instance : Decidable (Matches addresses topics log) :=
  decidable_of_iff' _ matches_iff

theorem filterLogs_eq {logs : List Log} : filterLogs logs none none addresses topics =
    logs.filter (Matches addresses topics ·) := by
  refine List.filter_congr fun log _ => ?_
  simp only [matches_iff, Option.any_none, Bool.not_false, Bool.true_and]
  exact (Bool.decide_eq_true).symm

theorem bloomFilter_of_matches {receipts : List Receipt} (hl : log ∈ receipts.flatMap Receipt.logs)
    (hm : Matches addresses topics log) :
    bloomFilter H (createBloom H receipts) addresses topics := by
  obtain ⟨r, hr, hl⟩ := List.mem_flatMap.mp hl
  simp only [bloomFilter, Bool.and_eq_true, Bool.or_eq_true, List.isEmpty_iff, List.any_eq_true,
    List.all_eq_true, Bloom.bloomLookup_iff, decide_eq_true_eq]
  constructor
  case left =>
    exact hm.address.imp_right fun ha =>
      ⟨_, ha, Bloom.createBloom_covers hr (Bloom.logsBloom_address hl)⟩
  case right =>
    intro sub hs
    obtain ⟨i, hi⟩ := List.mem_iff_getElem?.mp hs
    obtain ⟨topic, ht, t, hts, hz | rfl⟩ := hm.topics hi
    case inl => exact ⟨t, hts, .inl hz⟩
    case inr =>
      exact ⟨topic, hts, .inr (Bloom.createBloom_covers hr
        (Bloom.logsBloom_topic hl (List.mem_of_getElem? ht)))⟩

variable {a b n : Nat}

theorem float64_of_le (h : n ≤ 2 ^ 53) : float64 n = n := by
  obtain h | rfl := h.lt_or_eq
  case inl => rw [float64, if_pos h]
  case inr => decide +kernel

theorem le_float64 (h : 2 ^ 53 ≤ n) : 2 ^ 53 ≤ float64 n := by
  have hlog : 53 ≤ n.log2 := (Nat.le_log2 (by omega)).mpr h
  have hq : 2 ^ 52 ≤ n / 2 ^ (n.log2 - 52) := by
    rw [Nat.le_div_iff_mul_le (by positivity), ← pow_add, show 52 + (n.log2 - 52) = n.log2 by omega]
    exact Nat.log2_self_le (by omega)
  have he : 2 ^ 1 ≤ 2 ^ (n.log2 - 52) := Nat.pow_le_pow_right (by norm_num) (by omega)
  rw [float64, if_neg (by omega)]
  calc 2 ^ 53 = 2 ^ 52 * 2 ^ 1 := by norm_num
    _ ≤ _ := Nat.mul_le_mul (by split <;> omega) he

theorem floatMax_toNat {a b : UInt64} (ha : a.toNat ≤ 2 ^ 53) (hb : b.toNat ≤ 2 ^ 53) :
    (floatMax a b).toNat = max a.toNat b.toNat := by
  rw [floatMax, float64_of_le ha, float64_of_le hb, UInt64.toNat_ofNat_of_lt' (by
    change _ < 2 ^ 64
    omega)]

-- The number of the last block of a batch may be rounded, but only if it is beyond the range.
theorem floatMin_toNat {a b : UInt64} (hb : b.toNat < 2 ^ 53) :
    (floatMin a b).toNat = min a.toNat b.toNat := by
  have hm : min (float64 a.toNat) b.toNat = min a.toNat b.toNat := by
    by_cases ha : a.toNat ≤ 2 ^ 53
    case pos => rw [float64_of_le ha]
    case neg =>
      have := le_float64 (not_le.mp ha).le
      omega
  rw [floatMin, float64_of_le hb.le, hm, UInt64.toNat_ofNat_of_lt' (by
    change _ < 2 ^ 64
    omega)]

end

-- The canonical chain, with the receipts of its blocks. The header of a block has the bloom filter
-- of the receipts.
structure Canon (H : Hashes) (genesis : Header) (bc : BlockChain) (S : Set Header) (l : List Header) :
    Prop where
  headers : Headers H genesis S
  branch  : HeaderBranch H genesis S bc.currentBlock.header l
  index   : bc.chainDb.Indexed H l
  stored  : ∀ h ∈ l, bc.chainDb.getHeader (H.header h) h.number = some h
  numbers : ∀ h ∈ l, bc.chainDb.getBlockNumber (H.header h) = h.number
  blooms  : ∀ h ∈ l, h.bloom = createBloom H (bc.chainDb.getBlockReceipts (H.header h) h.number)

def blockLogs (H : Hashes) (bc : BlockChain) (h : Header) : List Log :=
  (bc.chainDb.getBlockReceipts (H.header h) h.number).flatMap Receipt.logs

def headerAt (l : List Header) (n : Nat) : Option Header :=
  l.find? fun h => h.number.toNat = n

section

variable {ε : Type} {H : Hashes} {genesis : Header} {bc : BlockChain} {S : Set Header}
variable {l : List Header} {n : Nat} {h : Header} {pending : Block}

section

variable (hc : Canon H genesis bc S l)
include hc

theorem headerAt_eq_some :
    headerAt l n = some h ↔ h ∈ l ∧ h.number.toNat = n := by
  constructor
  case mp =>
    intro he
    exact ⟨List.mem_of_find?_eq_some he, by simpa using List.find?_some he⟩
  case mpr =>
    rintro ⟨hm, hn⟩
    cases he : headerAt l n
    case none => exact absurd hn (by simpa using List.find?_eq_none.mp he h hm)
    case some a =>
      have ha : a.number.toNat = n := by simpa using List.find?_some he
      rw [hc.branch.eq_of_height (List.mem_of_find?_eq_some he) hm (ha.trans hn.symm)]

theorem headerAt_reverse : headerAt l.reverse n = headerAt l n := by
  cases he : headerAt l.reverse n
  case none =>
    have hnone := List.find?_eq_none.mp he
    exact (List.find?_eq_none.mpr fun a ha => hnone a (List.mem_reverse.mpr ha)).symm
  case some a =>
    have ha := List.mem_reverse.mp (List.mem_of_find?_eq_some he)
    exact ((headerAt_eq_some hc).mpr ⟨ha, by simpa using List.find?_some he⟩).symm

theorem headerAt_eq_none :
    headerAt l n = none ↔ bc.currentBlock.number.toNat < n := by
  constructor
  case mp =>
    intro he
    by_contra hlt
    obtain ⟨a, ha, hn⟩ := hc.branch.exists_height hc.headers.proper (not_lt.mp hlt)
    rw [(headerAt_eq_some hc).mpr ⟨ha, hn⟩] at he
    cases he
  case mpr =>
    intro hlt
    cases he : headerAt l n
    case none => rfl
    case some a =>
      obtain ⟨ha, hn⟩ := (headerAt_eq_some hc).mp he
      have : a.number.toNat ≤ bc.currentBlock.number.toNat := hc.branch.height_le a ha
      omega

end

theorem toInt64_ne {i : UInt64} (hi : i.toNat ≤ 2 ^ 53) : i.toInt64 ≠ -2 ∧ i.toInt64 ≠ -1 := by
  constructor
  all_goals
    intro he
    have := congrArg (fun n : Int64 => n.toUInt64.toNat) he
    simp only [UInt64.toUInt64_toInt64] at this
    have hv : ((-1 : Int64).toUInt64.toNat = 2 ^ 64 - 1) ∧ (-2 : Int64).toUInt64.toNat = 2 ^ 64 - 2 := by
      decide
    omega

theorem headerByNumber_eq (hc : Canon H genesis bc S l) (hn : n ≤ 2 ^ 53) :
    (ethApiBackend bc pending : Backend ε).headerByNumber (UInt64.ofNat n).toInt64 =
      .ok (headerAt l n) := by
  have hi : (UInt64.ofNat n).toNat = n := UInt64.toNat_ofNat_of_lt' (by change n < 2 ^ 64; omega)
  obtain ⟨h₂, h₁⟩ := toInt64_ne (hi.le.trans hn)
  simp only [ethApiBackend, if_neg h₂, if_neg h₁, UInt64.toUInt64_toInt64, Except.ok.injEq]
  cases he : headerAt l n
  case none =>
    rw [hc.index.blank, if_pos rfl]
    intro a ha hn
    have hnone := (headerAt_eq_some hc).mpr ⟨ha, (congrArg UInt64.toNat hn).trans hi⟩
    rw [he] at hnone
    cases hnone
  case some h =>
    obtain ⟨hm, hn⟩ := (headerAt_eq_some hc).mp he
    have hh : UInt64.ofNat n = h.number := UInt64.toNat_inj.mp (hi.trans hn.symm)
    have hk : bc.chainDb.getCanonicalHash h.number = H.header h := hc.index.here h hm
    rw [hh, hk, if_neg (hc.headers.nonzero h (hc.branch.subset h hm)), hc.stored h hm]

variable {f : Filter ε}

def logsAt (H : Hashes) (bc : BlockChain) (l : List Header) (f : Filter ε) (n : Nat) : List Log :=
  (headerAt l n).elim [] fun h => (blockLogs H bc h).filter (Matches f.addresses f.topics ·)

def hit (H : Hashes) (bc : BlockChain) (l : List Header) (f : Filter ε) (n : Nat) :
    Option (List Log × UInt64) :=
  if logsAt H bc l f n = [] then none else some (logsAt H bc l f n, .ofNat n)

def search (H : Hashes) (bc : BlockChain) (l : List Header) (f : Filter ε) (start last : Nat) :
    Option (List Log × UInt64) :=
  (steps start last 1).findSome? (hit H bc l f)

variable {start last : Nat} {r : List Log × UInt64}

theorem search_of_lt (h : last < start) : search H bc l f start last = none := by
  rw [search, steps_of_lt h, List.findSome?_nil]

theorem search_of_le (h : start ≤ last) : search H bc l f start last =
    (hit H bc l f start).or (search H bc l f (start + 1) last) := by
  rw [search, steps_of_le zero_lt_one h, List.findSome?_cons]
  cases hit H bc l f start <;> rfl

theorem search_eq_none : search H bc l f start last = none ↔
    ∀ n, start ≤ n → n ≤ last → logsAt H bc l f n = [] := by
  simp only [search, List.findSome?_eq_none_iff, mem_steps_one, hit, and_imp, ite_eq_left_iff,
    reduceCtorEq, imp_false, not_not]

theorem search_eq_none_of_head_lt (hc : Canon H genesis bc S l)
    (h : bc.currentBlock.number.toNat < start) : search H bc l f start last = none := by
  refine search_eq_none.mpr fun n hn _ => ?_
  rw [logsAt, (headerAt_eq_none hc).mpr (by omega)]
  rfl

theorem ne_nil_of_search (h : search H bc l f start last = some r) : r.1 ≠ [] := by
  obtain ⟨n, -, hn⟩ := List.exists_of_findSome?_eq_some h
  rw [hit] at hn
  split at hn
  case isTrue  => cases hn
  case isFalse => cases hn; assumption

theorem searchBlocks_eq (hc : Canon H genesis bc S l) (hf : f.backend = ethApiBackend bc pending)
    {last : UInt64} (hl : last.toNat < 2 ^ 53) (start : Nat) :
    f.searchBlocks H last ((steps start last.toNat 1).map .ofNat) =
      (((search H bc l f start last.toNat).getD ([], last)).1,
        ((search H bc l f start last.toNat).getD ([], last)).2, none) := by
  induction start using steps_induction last.toNat zero_lt_one
  case hlt start hlt => rw [steps_of_lt hlt, search_of_lt hlt]; rfl
  case hle start hle hi =>
    rw [steps_of_le zero_lt_one hle, List.map_cons, Filter.searchBlocks, hf,
      headerByNumber_eq hc (by omega)]
    cases he : headerAt l start
    case none => rw [search_eq_none_of_head_lt hc ((headerAt_eq_none hc).mp he)]; rfl
    case some h =>
      obtain ⟨hm, -⟩ := (headerAt_eq_some hc).mp he
      have hlogs : logsAt H bc l f start = (blockLogs H bc h).filter (Matches f.addresses f.topics ·) := by
        rw [logsAt, he]
        rfl
      have hr : (ethApiBackend bc pending : Backend ε).getReceipts (H.header h) =
          .ok (bc.chainDb.getBlockReceipts (H.header h) h.number) := by
        simp only [ethApiBackend, hc.numbers h hm]
      have hb : (bc.chainDb.getBlockReceipts (H.header h) h.number).flatMap Receipt.logs =
          blockLogs H bc h := rfl
      have hsearch : search H bc l f start last.toNat = _ := search_of_le hle
      rw [hit, hlogs] at hsearch
      simp only [hr, filterLogs_eq, hi, hb]
      by_cases hn : (blockLogs H bc h).filter (Matches f.addresses f.topics ·) = []
      case pos =>
        rw [if_pos hn, Option.none_or] at hsearch
        simp only [hn, ne_eq, not_true_eq_false, if_false, ite_self, hsearch]
      case neg =>
        -- A log that matches is in the bloom filter of the block.
        obtain ⟨log, hlog⟩ := List.exists_mem_of_ne_nil _ hn
        obtain ⟨hlog, hmatch⟩ := List.mem_filter.mp hlog
        have hb := hc.blooms h hm ▸ bloomFilter_of_matches hlog (of_decide_eq_true hmatch)
        rw [if_neg hn, Option.some_or] at hsearch
        simp only [hb, hn, ne_eq, not_false_eq_true, if_true, hsearch, Option.getD_some]

theorem getLogs_eq (hc : Canon H genesis bc S l) (hf : f.backend = ethApiBackend bc pending)
    {start last : UInt64} (hl : last.toNat < 2 ^ 53) : f.getLogs H start last =
      (((search H bc l f start.toNat last.toNat).getD ([], last)).1,
        ((search H bc l f start.toNat last.toNat).getD ([], last)).2, none) :=
  searchBlocks_eq hc hf hl start.toNat

-- The search of the range of a filter is repeated for further addresses only if it found nothing.
theorem searchAddresses_eq {bloom : Bloom} {addrs : List Address}
    (ha : addrs ≠ []) : Filter.searchAddresses H bloom r true addrs = if r.1 = [] then none else some r := by
  have hnone (first : Bool) (h : r.1 = []) : Filter.searchAddresses H bloom r first addrs = none := by
    clear ha
    induction addrs generalizing first
    case nil => rfl
    case cons a addrs hi => simp [Filter.searchAddresses, h, hi]
  by_cases h : r.1 = []
  case pos => rw [hnone true h, if_pos h]
  case neg =>
    obtain ⟨a, addrs, rfl⟩ := List.exists_cons_of_ne_nil ha
    simp [Filter.searchAddresses, h]

def Levels (levels : List UInt64) : Prop :=
  ∀ level ∈ levels, 0 < level.toNat ∧ level.toNat ≤ 2 ^ 53

theorem mipMapLevels_levels : Levels mipMapLevels := by
  simp [Levels, mipMapLevels]

theorem getD_search {n : UInt64} :
    (if ((search H bc l f start last).getD ([], n)).1 = [] then none
      else some ((search H bc l f start last).getD ([], n))) = search H bc l f start last := by
  cases h : search H bc l f start last
  case none   => rfl
  case some r => exact if_neg (ne_nil_of_search h)

-- Searching the batches of a level one after another is searching the whole range.
theorem findSome?_batches {level : Nat} (hs : 0 < level) (start last : Nat) :
    (steps (start / level * level) last level).findSome? (fun num =>
      search H bc l f (max num start) (min (num + level - 1) last)) = search H bc l f start last := by
  have hle : start / level * level ≤ start := Nat.div_mul_le_self start level
  have hlt : start < start / level * level + level := by
    have := Nat.lt_div_mul_add (a := start) hs
    omega
  rw [search, ← flatMap_steps hs hle hlt.le, List.findSome?_flatMap]
  rfl

theorem batch_end {num level : UInt64} (hn : num.toNat < 2 ^ 53) (hpos : 0 < level.toNat)
    (hmax : level.toNat ≤ 2 ^ 53) : (num + level - 1).toNat = num.toNat + level.toNat - 1 := by
  have hadd : (num + level).toNat = num.toNat + level.toNat := by
    rw [UInt64.toNat_add, Nat.mod_eq_of_lt (by omega)]
  have hle : (1 : UInt64) ≤ num + level := by
    rw [UInt64.le_iff_toNat_le, UInt64.toNat_one]
    omega
  rw [UInt64.toNat_sub_of_le _ _ hle, hadd, UInt64.toNat_one]

theorem mipFind_eq (hc : Canon H genesis bc S l) (hf : f.backend = ethApiBackend bc pending)
    (ha : f.addresses ≠ []) {levels : List UInt64} (hn : levels ≠ []) (hls : Levels levels)
    {start last : UInt64} (hs : start.toNat ≤ 2 ^ 53) (hl : last.toNat < 2 ^ 53) :
    f.mipFind H levels start last = (search H bc l f start.toNat last.toNat).getD ([], last) := by
  induction levels generalizing start last
  case nil => exact absurd rfl hn
  case cons level levels hi =>
    obtain ⟨⟨hpos, hmax⟩, hls⟩ := List.forall_mem_cons.mp hls
    -- The search of one batch, on either kind of level.
    have hbatch (num : UInt64) (hnum : num.toNat ≤ last.toNat) :
        Filter.searchAddresses H (f.backend.chainDb.getMipmapBloom num level)
          (if levels = [] then
            ((f.getLogs H (floatMax num start) (floatMin (num + level - 1) last)).1,
              (f.getLogs H (floatMax num start) (floatMin (num + level - 1) last)).2.1)
          else f.mipFind H levels (floatMax num start) (floatMin (num + level - 1) last))
          true f.addresses =
        search H bc l f (max num.toNat start.toNat) (min (num.toNat + level.toNat - 1) last.toNat) := by
      have hadd : (num + level - 1).toNat = num.toNat + level.toNat - 1 :=
        batch_end (by omega) hpos hmax
      have hmaxn : (floatMax num start).toNat = max num.toNat start.toNat :=
        floatMax_toNat (by omega) hs
      have hminn : (floatMin (num + level - 1) last).toNat =
          min (num.toNat + level.toNat - 1) last.toNat := by rw [floatMin_toNat hl, hadd]
      have hs' : (floatMax num start).toNat ≤ 2 ^ 53 := by omega
      have hl' : (floatMin (num + level - 1) last).toNat < 2 ^ 53 := by omega
      rw [searchAddresses_eq ha, ← hmaxn, ← hminn, ← getD_search (n := floatMin (num + level - 1) last)]
      by_cases he : levels = []
      case pos => simp only [he, if_true, getLogs_eq hc hf hl', Prod.mk.eta]
      case neg => simp only [he, if_false, hi he hls hs' hl']
    have hfirst : (start / level * level).toNat = start.toNat / level.toNat * level.toNat := by
      have hle := Nat.div_mul_le_self start.toNat level.toNat
      rw [UInt64.toNat_mul, UInt64.toNat_div, Nat.mod_eq_of_lt (by omega)]
    rw [Filter.mipFind, Filter.counter, List.findSome?_map, hfirst]
    refine congrArg (Option.getD · ([], last)) (Eq.trans ?_ (findSome?_batches hpos _ _))
    refine List.findSome?_congr fun num hm => ?_
    have hm' : num ≤ last.toNat := le_of_mem_steps hm
    have hnum : (UInt64.ofNat num).toNat = num :=
      UInt64.toNat_ofNat_of_lt' (by change num < 2 ^ 64; omega)
    have hb := hbatch (.ofNat num) (by omega)
    rw [hnum] at hb
    exact hb

-- Block number -1 stands for the current block.
def resolve (bc : BlockChain) (n : Int64) : UInt64 :=
  if n = -1 then bc.currentBlock.number else n.toUInt64

theorem resolve_toInt64 {i : UInt64} (h : i.toNat ≤ 2 ^ 53) : resolve bc i.toInt64 = i := by
  rw [resolve, if_neg (toInt64_ne h).right, UInt64.toUInt64_toInt64]

theorem findOnce_eq (hc : Canon H genesis bc S l) (hf : f.backend = ethApiBackend bc pending)
    (hb : (resolve bc f.begin_).toNat ≤ 2 ^ 53) (he : (resolve bc f.end_).toNat < 2 ^ 53) {r}
    (hr : (search H bc l f (resolve bc f.begin_).toNat (resolve bc f.end_).toNat).getD
      ([], resolve bc f.end_) = r) :
    f.findOnce H = ((r.1, none), { f with begin_ := (r.2 + 1).toInt64 }) := by
  have hhead : f.backend.headerByNumber (-1) = .ok (some bc.currentBlock.header) := by
    have h₂ : ¬ (-1 : Int64) = -2 := by decide
    rw [hf]
    simp only [ethApiBackend, h₂, if_false, if_true]
  -- The match is split here and not reduced: reducing it makes the kernel evaluate both branches.
  unfold Filter.findOnce
  split
  case h_1 h => simp [hhead] at h
  case h_2 h => simp [hhead] at h
  case h_3 head h =>
    obtain rfl : bc.currentBlock.header = head := by simpa [hhead] using h
    extract_lets beginBlockNo endBlockNo
    have hbegin : beginBlockNo = resolve bc f.begin_ := rfl
    have hend : endBlockNo = resolve bc f.end_ := rfl
    clear_value beginBlockNo endBlockNo
    subst hbegin hend
    split
    case isTrue => rw [getLogs_eq hc hf he, hr]
    case isFalse hm =>
      have ha : f.addresses ≠ [] := by
        rintro ha
        simp [ha] at hm
      rw [mipFind_eq hc hf ha (by decide) mipMapLevels_levels hb he, hr]

theorem search_eq_some (h : search H bc l f start last = some r) : ∃ n, start ≤ n ∧ n ≤ last ∧
      r = (logsAt H bc l f n, .ofNat n) ∧ (steps start last 1).flatMap (logsAt H bc l f) =
        logsAt H bc l f n ++ (steps (n + 1) last 1).flatMap (logsAt H bc l f) := by
  induction start using steps_induction last zero_lt_one
  case hlt start hlt =>
    rw [search_of_lt hlt] at h
    cases h
  case hle start hle hi =>
    rw [search_of_le hle, hit] at h
    rw [steps_of_le zero_lt_one hle, List.flatMap_cons]
    split at h
    case isTrue hn =>
      obtain ⟨n, hs, hl, hr, hrest⟩ := hi h
      exact ⟨n, by omega, hl, hr, by rw [hn, hrest, List.nil_append]⟩
    case isFalse =>
      cases h
      exact ⟨start, le_rfl, hle, rfl, rfl⟩

theorem findLoop_eq (hc : Canon H genesis bc S l) (hf : f.backend = ethApiBackend bc pending)
    (he : (resolve bc f.end_).toNat < 2 ^ 53) (fuel : Nat) (logs : List Log) {b : Int64}
    (hb : (resolve bc b).toNat ≤ 2 ^ 53)
    (hfuel : (resolve bc f.end_).toNat + 1 - (resolve bc b).toNat < fuel) :
    Filter.findLoop H fuel logs { f with begin_ := b } =
      some (logs ++ (steps (resolve bc b).toNat (resolve bc f.end_).toNat 1).flatMap
        (logsAt H bc l f), none) := by
  induction fuel generalizing logs b
  case zero => omega
  case succ fuel hi =>
    cases hr : search H bc l f (resolve bc b).toNat (resolve bc f.end_).toNat
    case none =>
      have hnil : (steps (resolve bc b).toNat (resolve bc f.end_).toNat 1).flatMap
          (logsAt H bc l f) = [] := by
        refine List.flatMap_eq_nil_iff.mpr fun n hn => ?_
        exact search_eq_none.mp hr n (mem_steps_one.mp hn).left (mem_steps_one.mp hn).right
      rw [Filter.findLoop, findOnce_eq (f := { f with begin_ := b }) hc hf hb he
        (show _ = ([], resolve bc f.end_) from congrArg (Option.getD · _) hr), hnil, List.append_nil]
      exact if_pos (.inl rfl)
    case some r =>
      obtain ⟨n, hn, hle, hrn, hrest⟩ := search_eq_some hr
      have hnat : (UInt64.ofNat n + 1).toNat = n + 1 := by
        rw [UInt64.toNat_add, UInt64.toNat_ofNat_of_lt' (by change n < 2 ^ 64; omega),
          UInt64.toNat_one, Nat.mod_eq_of_lt (by omega)]
      have hres : resolve bc (UInt64.ofNat n + 1).toInt64 = UInt64.ofNat n + 1 :=
        resolve_toInt64 (by omega)
      have hne := ne_nil_of_search hr
      have hnext := hi (logs ++ r.1) (b := (r.2 + 1).toInt64)
      rw [Filter.findLoop, findOnce_eq (f := { f with begin_ := b }) hc hf hb he
        (show _ = r from congrArg (Option.getD · _) hr)]
      refine (if_neg (by simpa using hne)).trans ((hnext ?_ ?_).trans ?_)
      all_goals simp only [hrn, hres, hnat]
      case refine_1 => omega
      case refine_2 => omega
      case refine_3 => rw [hrest, List.append_assoc]

-- A filter finds the logs of the canonical blocks in its range that match, block after block.
theorem find_exact (hc : Canon H genesis bc S l) (f : Filter ε)
    (hf : f.backend = ethApiBackend bc pending) (hb : (resolve bc f.begin_).toNat < 2 ^ 53)
    (he : (resolve bc f.end_).toNat < 2 ^ 53) : ∃ n, ∀ fuel ≥ n, f.find H fuel =
      some ((l.reverse.filter fun h => (resolve bc f.begin_).toNat ≤ h.number.toNat ∧
          h.number.toNat ≤ (resolve bc f.end_).toNat).flatMap fun h =>
        (blockLogs H bc h).filter (Matches f.addresses f.topics ·), none) := by
  refine ⟨2 ^ 54, fun fuel hfuel => ?_⟩
  have hloop := findLoop_eq hc hf he fuel [] hb.le (by omega)
  refine hloop.trans ?_
  have hkeys : l.reverse.Pairwise fun a b => a.number.toNat < b.number.toNat :=
    List.pairwise_reverse.mpr hc.branch.pairwise
  rw [← flatMap_steps_find? hkeys]
  refine congrArg (fun logs => some (logs, none)) (List.flatMap_congr fun n _ => ?_)
  rw [logsAt, ← headerAt_reverse hc]
  rfl

end

def sampleLog : Log where
  address     := Address.zero
  topics      := [bytesToHash [7]]
  data        := []
  blockNumber := 1
  txHash      := Hash.zero
  txIndex     := 0
  blockHash   := Hash.zero
  index       := 0

def sampleReceipt : Receipt where
  postState         := []
  cumulativeGasUsed := 0
  bloom             := 0
  logs              := [sampleLog]
  txHash            := Hash.zero
  contractAddress   := Address.zero
  gasUsed           := 0

def sampleHead : Header :=
  { HeaderChain.sampleHeader 2 1 1 1 with
    bloom := createBloom HeaderChain.sampleHashes [sampleReceipt] }

def sampleDb : ChainDb :=
  let H := HeaderChain.sampleHashes
  let db := (ChainDb.empty.writeHeader H HeaderChain.sampleGenesis).writeHeader H sampleHead
  let db := (db.writeBlockReceipts (H.header sampleHead) 1 [sampleReceipt]).writeMipmapBloom H 1 [sampleReceipt]
  (db.writeCanonicalHash (H.header HeaderChain.sampleGenesis) 0).writeCanonicalHash (H.header sampleHead) 1

def sampleChain : BlockChain :=
  let block : Block := { header := sampleHead, transactions := [], uncles := [] }
  { (BlockChain.new HeaderChain.sampleHashes block).updateDb fun _ => sampleDb with
    currentBlock := block }

def sampleFilter : Filter Unit where
  backend   := ethApiBackend sampleChain sampleChain.currentBlock
  useMipMap := true
  begin_    := 0
  end_      := -1
  addresses := [Address.zero]
  topics    := [[bytesToHash [7]]]

theorem sampleChain_canon : Canon HeaderChain.sampleHashes HeaderChain.sampleGenesis sampleChain
    {sampleHead, HeaderChain.sampleGenesis} [sampleHead, HeaderChain.sampleGenesis] where
  headers := by
    have h := Headers.ofList (H := HeaderChain.sampleHashes) (l := [sampleHead])
      (show HeaderChain.sampleGenesis.number = 0 by decide) (by decide +kernel) (by decide +kernel)
      (by decide +kernel)
    refine h.mono ?_
    rintro h (rfl | rfl)
    case inl => exact .inr List.mem_cons_self
    case inr => exact .inl rfl
  branch  := .step (.inl rfl) ⟨rfl, rfl⟩ (.root (.inr rfl))
  index   := by
    refine ⟨by unfold ChainDb.Canonical; decide +kernel, fun n hn => ?_⟩
    have h₀ : n ≠ 0 := fun h => hn HeaderChain.sampleGenesis (by simp) (by rw [h]; rfl)
    have h₁ : n ≠ 1 := fun h => hn sampleHead (by simp) (by rw [h]; rfl)
    have hdb : sampleChain.chainDb = sampleDb := rfl
    rw [hdb, sampleDb, ChainDb.getCanonicalHash_writeCanonicalHash, if_neg h₁,
      ChainDb.getCanonicalHash_writeCanonicalHash, if_neg h₀]
    rfl
  stored  := by decide +kernel
  numbers := by decide +kernel
  blooms  := by decide +kernel

theorem sampleFilter_find : ∃ n, ∀ fuel ≥ n, sampleFilter.find HeaderChain.sampleHashes fuel =
    some ([sampleLog], none) := by
  have hlogs : (([sampleHead, HeaderChain.sampleGenesis].reverse.filter fun h =>
      (resolve sampleChain sampleFilter.begin_).toNat ≤ h.number.toNat ∧
        h.number.toNat ≤ (resolve sampleChain sampleFilter.end_).toNat).flatMap fun h =>
      (blockLogs HeaderChain.sampleHashes sampleChain h).filter
        (Matches sampleFilter.addresses sampleFilter.topics ·)) = [sampleLog] := by
    decide +kernel
  exact find_exact sampleChain_canon sampleFilter rfl (by decide +kernel) (by decide +kernel)

end Filters
