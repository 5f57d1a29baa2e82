import GoEthereum.Trie.Rep

-- The node methods of the trie refine lookup, insertion and deletion of the tree they represent.

namespace Trie

open Common Merkle

variable {keccak : Bytes → Hash} {D : Database} {S : Set Bytes} {p k : Key} {t : Tree} {r : Bool}
variable {n : Node Key} (tr : Trie)

theorem eq_nil_of_mem (hp : p ∈ hexKeys) (hk : p ++ k ∈ hexKeys) : k = [] :=
  hexKeys_prefixFree.suffixes p |>.eq_nil (by simpa [Patricia.suffixes] using hp) hk

theorem Merkle.Wf.insert (ht : Wf p t) (hk : p ++ k ∈ hexKeys) (v : Value) : Wf p (t.insert k v) :=
  have hP := hexKeys_prefixFree.suffixes p
  ⟨ht.reduced.insert hP ht.within hk |>.left, ht.within.insert hP ht.reduced hk⟩

theorem Merkle.Wf.delete (ht : Wf p t) (hk : p ++ k ∈ hexKeys) : Wf p (t.delete k) :=
  have hP := hexKeys_prefixFree.suffixes p
  ⟨ht.reduced.delete hP ht.within hk |>.left, ht.within.delete hP ht.reduced hk⟩

-- The levels a recursion needs that has the rest `k` of the key before it.
def need (n : Node Key) (k : Key) : Nat :=
  2 * k.length + if n.isHash then 2 else 1

theorem need_ne_zero : ¬need n k ≤ 0 := by
  unfold need
  split_ifs <;> omega

variable {fuel : Nat}

theorem need_child {c : Node Key} {l : Key} (hf : need n k ≤ fuel + 1)
    (h : l.length < k.length) : need c l ≤ fuel := by
  unfold need at *
  split_ifs at * <;> omega

theorem need_resolved {c : Node Key} {h : Hash} (hf : need (.hash h) k ≤ fuel + 1)
    (hc : c.isHash = false) : need c k ≤ fuel := by
  have : (Node.hash h : Node Key).isHash = true := rfl
  simp [need, hc, this] at *
  omega

theorem tryGetNode_spec {q : Key} (ht : Wf p t) (hr : Rep keccak D S r n t)
    (hk : p ++ k ∈ hexKeys) (hf : need n k ≤ fuel) :
    ∃ n' b, tr.tryGetNode D (q ++ k) fuel n q.length = .ok ((t.lookup k).map (·.val), n', b) ∧
      Rep keccak D S r n' t := by
  induction fuel generalizing p t r n k q
  case zero => exact absurd hf need_ne_zero
  case succ fuel hi =>
    cases hr
    case nil => exact ⟨.nil, false, rfl, .nil⟩
    case value v =>
      obtain rfl := eq_nil_of_mem ht.value hk
      exact ⟨_, false, rfl, .value v⟩
    case short k₀ c flags t hr hc =>
      by_cases hp : k₀ <+: k
      case neg =>
        have hcond : (q ++ k).length - q.length < k₀.length ∨
            k₀ ≠ ((q ++ k).drop q.length).take k₀.length := by
          by_contra hcon
          push Not at hcon
          exact hp <| List.prefix_iff_eq_take.mpr (by simpa using hcon.right)
        refine ⟨_, false, ?_, .short hr hc⟩
        simp only [Trie.tryGetNode]
        rw [if_pos hcond, Patricia.Tree.lookup_short_eq_none _ hp]
        rfl
      case pos =>
        obtain ⟨l, rfl⟩ := hp
        have hlen := List.length_pos_iff.mpr ht.reduced.left
        obtain ⟨n', b, hget, hr'⟩ := hi (q := q ++ k₀) (k := l) ht.of_short hr
          (by rwa [List.append_assoc]) (need_child hf (by simp; omega))
        have hcond : ¬((q ++ (k₀ ++ l)).length - q.length < k₀.length ∨
            k₀ ≠ ((q ++ (k₀ ++ l)).drop q.length).take k₀.length) := by
          simp
        rw [List.append_assoc, List.length_append] at hget
        simp only [Trie.tryGetNode]
        rw [if_neg hcond, Patricia.Tree.lookup_short_append]
        simp only [hget, bind, Except.bind]
        cases b
        case false => exact ⟨_, false, rfl, .short hr hc⟩
        case true  => exact ⟨_, true, rfl, .short hr' (hc.gen _)⟩
    case full cs flags ts hrs hc =>
      cases k
      case nil => simpa [Patricia.Tree.isNode] using ht.isNode_of_mem (by simpa using hk)
      case cons a l =>
        obtain ⟨n', b, hget, hr'⟩ := hi (q := q ++ [a]) (k := l) (ht.of_full a) (hrs a) (by simpa using hk)
          (need_child hf (by simp))
        simp only [List.append_assoc, List.singleton_append, List.length_append, List.length_cons,
          List.length_nil, Nat.zero_add] at hget
        have hpos : (q ++ a :: l)[q.length]? = some a := by simp
        simp only [Trie.tryGetNode, hpos, hget, bind, Except.bind, Patricia.Tree.lookup_full_cons]
        cases b
        case false => exact ⟨_, false, rfl, .full hrs hc⟩
        case true =>
          refine ⟨_, true, rfl, .full (fun i => ?_) (hc.gen _)⟩
          by_cases hia : i = a
          · subst hia; simpa using hr'
          · simpa [hia] using hrs i
    case hash h hn hw hh =>
      obtain ⟨c, hres, hr, hnh⟩ := resolveHash_spec tr ht (.hash hn hh hw)
        ((q ++ k).take q.length) ((q ++ k).drop q.length)
      obtain ⟨n', b, hget, hr'⟩ := hi (q := q) ht hr hk (need_resolved hf hnh)
      refine ⟨n', true, ?_, hr'⟩
      simp only [Trie.tryGetNode, hres, hget, bind, Except.bind]
      rfl

def graftNode (tr : Trie) (k : Key) (n : Node Key) : Node Key :=
  if k = [] then n else .short k n tr.newFlag

variable {fuel : Nat}

theorem insert_nil (hf : 0 < fuel) (pre k : Key) (n : Node Key) :
    tr.insert D fuel .nil pre k n = .ok (true, graftNode tr k n) := by
  obtain ⟨fuel, rfl⟩ := Nat.exists_eq_add_one.mpr hf
  cases k <;> rfl

theorem Rep.graftNode (h : Rep keccak D S false n t) (k : Key) :
    Rep keccak D S false (graftNode tr k n) (t.graft k) := by
  cases k
  case nil  => simpa [Trie.graftNode, Patricia.Tree.graft] using h
  case cons => exact .short h (.newFlag tr)

theorem insert_short_branch {b c : Nibble} {q bs l pre : Key} {flags : NodeFlag}
    {m : Node Key} (h : c ≠ b) (hf : 0 < fuel) :
    tr.insert D (fuel + 1) (.short (q ++ b :: bs) n flags) pre (q ++ c :: l) m =
      let branch := .full (Function.update (Function.update (fun _ => .nil) b (graftNode tr bs n)) c
        (graftNode tr l m)) tr.newFlag
      .ok (true, if q = [] then branch else .short q branch tr.newFlag) := by
  have hm : prefixLen (q ++ c :: l) (q ++ b :: bs) = q.length := Patricia.prefixLen_branch h q bs l
  obtain ⟨a, as, hcons⟩ : ∃ a as, q ++ c :: l = a :: as := by cases q <;> simp
  rw [hcons] at hm ⊢
  simp only [Trie.insert, hm]
  rw [if_neg (by simp), ← hcons]
  simp only [List.drop_left, insert_nil tr hf, bind, Except.bind, List.take_left, List.length_eq_zero_iff]
  cases q <;> rfl

theorem insert_short_append {k₀ l pre : Key} {flags : NodeFlag} {m : Node Key} (hk : k₀ ≠ []) :
    tr.insert D (fuel + 1) (.short k₀ n flags) pre (k₀ ++ l) m =
      (tr.insert D fuel n (pre ++ k₀) l m >>= fun (dirty, nn) =>
        if dirty then pure (true, .short k₀ nn tr.newFlag) else pure (false, .short k₀ n flags)) := by
  have hm : prefixLen (k₀ ++ l) k₀ = k₀.length := Patricia.prefixLen_append_left k₀ l
  obtain ⟨a, as, hcons⟩ : ∃ a as, k₀ ++ l = a :: as := by
    cases k₀
    case nil  => contradiction
    case cons => exact ⟨_, _, rfl⟩
  rw [hcons] at hm ⊢
  simp only [Trie.insert, hm, if_true]
  rw [← hcons, List.drop_left, List.take_left]

theorem Rep.update {cs : Nibble → Node Key} {ts : Nibble → Tree} {a : Nibble}
    (hrs : ∀ i, Rep keccak D S false (cs i) (ts i)) (h : Rep keccak D S false n t) (i : Nibble) :
    Rep keccak D S false (Function.update cs a n i) (Function.update ts a t i) := by
  by_cases hi : i = a
  · subst hi; simpa using h
  · simpa [hi] using hrs i

theorem insert_spec (ht : Wf p t) (hr : Rep keccak D S r n t)
    (hk : p ++ k ∈ hexKeys) (hf : need n k ≤ fuel) (pre : Key) (v : Value) :
    ∃ b n', tr.insert D fuel n pre k (.value v.val) = .ok (b, n') ∧
      Rep keccak D S r n' (t.insert k v) ∧ (b = false → t.insert k v = t) := by
  induction fuel generalizing p t r n k pre
  case zero => exact absurd hf need_ne_zero
  case succ fuel hi =>
    by_cases hnil : k = []
    case pos =>
      -- The key ends here, where only a value can be.
      subst hnil
      by_cases hn : t = .nil
      · subst hn
        obtain rfl := hr.eq_nil
        exact ⟨true, _, rfl, .value v, by simp⟩
      · obtain ⟨w, rfl⟩ := ht.eq_value (by simpa using hk) hn
        obtain rfl := hr.eq_value
        refine ⟨_, _, rfl, .value v, fun h => ?_⟩
        simp at h
        simp [Patricia.Tree.insert, Subtype.ext h]
    case neg =>
      obtain ⟨a, as, hcons⟩ := List.exists_cons_of_ne_nil hnil
      cases hr
      case nil     => exact ⟨true, _, by rw [hcons]; rfl, by rw [hcons]; exact .short (.value v) (.newFlag tr), by simp⟩
      case value w => exact absurd (eq_nil_of_mem ht.value hk) hnil
      case short k₀ c flags t hr hc =>
        rcases Patricia.append_or_branch k k₀ with ⟨l, rfl⟩ | ⟨b, bs, rfl⟩ | ⟨q, b, bs, d, l, rfl, rfl, h⟩
        · have hpos := List.length_pos_iff.mpr ht.reduced.left
          obtain ⟨b, n', hins, hr', hb⟩ := hi (k := l) ht.of_short hr
            (by rwa [List.append_assoc]) (need_child hf (by simp; omega)) (pre ++ k₀)
          rw [insert_short_append tr ht.reduced.left, Patricia.Tree.insert_short_append ht.reduced.left, hins]
          cases b
          case false => exact ⟨false, _, rfl, (hb rfl).symm ▸ .short hr hc, fun h => by rw [hb h]⟩
          case true  => exact ⟨true, _, rfl, .short hr' (.newFlag tr), by simp⟩
        · have hP := hexKeys_prefixFree.suffixes p
          exact absurd hk (ht.reduced.not_prefix_key hP ht.within)
        · have hpos : 0 < fuel := by simp [need] at hf; omega
          have hbranch {r} : Rep keccak D S r
              (.full (Function.update (Function.update (fun _ => .nil) b (graftNode tr bs c)) d
                (graftNode tr l (.value v.val))) tr.newFlag)
              (.fork b (t.graft bs) d (.graft l (.value v))) := by
            refine .full (fun i => ?_) (.newFlag tr)
            have := Rep.update (a := d) (Rep.update (a := b) (fun _ => .nil) (hr.graftNode tr bs))
              (Rep.value v |>.graftNode tr l) i
            simpa [Function.update_apply] using this
          rw [insert_short_branch tr h hpos, Patricia.Tree.insert_short_branch h]
          refine ⟨true, _, rfl, ?_, by simp⟩
          cases q
          case nil  => exact hbranch
          case cons => exact .short hbranch (.newFlag tr)
      case full cs flags ts hrs hc =>
        subst hcons
        obtain ⟨b, n', hins, hr', hb⟩ := hi (k := as) (ht.of_full a) (hrs a)
          (by simpa using hk) (need_child hf (by simp)) (pre ++ [a])
        simp only [Trie.insert, hins, bind, Except.bind, Patricia.Tree.insert]
        cases b
        case false =>
          have he : Function.update ts a ((ts a).insert as v) = ts := by rw [hb rfl]; simp
          exact ⟨false, _, rfl, he.symm ▸ .full hrs hc, fun _ => by rw [he]⟩
        case true => exact ⟨true, _, rfl, .full (Rep.update hrs hr') (.newFlag tr), by simp⟩
      case hash h hn hw hh =>
        obtain ⟨c, hres, hr, hnh⟩ := resolveHash_spec tr ht (.hash hn hh hw) pre k
        obtain ⟨b, n', hins, hr', hb⟩ := hi ht hr hk (need_resolved hf hnh) pre
        rw [hcons] at hres hins
        rw [hcons]
        simp only [Trie.insert, hres, hins, bind, Except.bind]
        cases b
        case false => exact ⟨false, _, rfl, hcons ▸ (hb rfl).symm ▸ hr, hcons ▸ hb⟩
        case true  => exact ⟨true, _, rfl, hcons ▸ hr', hcons ▸ hb⟩

variable {cs : Nibble → Node Key}

theorem singleChild_eq_some {i : Nibble} :
    singleChild cs = some i ↔ ∀ j, (cs j).isNil = false ↔ j = i := by
  let l := (List.finRange 17).filter fun i => !(cs i).isNil
  have hmem : ∀ j, j ∈ l ↔ (cs j).isNil = false := by simp [l]
  have hsingle : singleChild cs = some i ↔ l = [i] := by
    unfold singleChild
    split <;> simp_all [l]
  have hnodup : l.Nodup := (List.nodup_finRange 17).filter _
  rw [hsingle, ← List.perm_singleton, List.perm_ext_iff_of_nodup hnodup (List.nodup_singleton i)]
  simp [hmem]

theorem singleChild_eq_none (h : singleChild cs = none) :
    ¬∃ i, ∀ j, (cs j).isNil = false ↔ j = i := by
  rintro ⟨i, hi⟩
  simp [singleChild_eq_some.mpr hi] at h

theorem Rep.isShort (h : Rep keccak D S r n t) (hn : n.isHash = false)
    (hs : ∀ k m flags, n ≠ .short k m flags) : t.isShort = false := by
  cases h
  case nil   => rfl
  case value => rfl
  case full  => rfl
  case short => exact absurd rfl (hs _ _ _)
  case hash  => simp [Node.isHash] at hn

theorem resolve_spec (ht : Wf p t) (hr : Rep keccak D S r n t) (pre suffix : Key) :
    ∃ n', tr.resolve D n pre suffix = .ok n' ∧ Rep keccak D S r n' t ∧ n'.isHash = false := by
  cases n
  case hash h => exact resolveHash_spec tr ht hr pre suffix
  all_goals exact ⟨_, rfl, hr, rfl⟩

theorem reduceFull_spec (pre : Key) {ts : Nibble → Tree}
    (ht : ∀ i, Wf (p ++ [i]) (ts i)) (hrs : ∀ i, Rep keccak D S false (cs i) (ts i)) :
    ∃ n, tr.reduceFull D cs pre = .ok n ∧ Rep keccak D S r n (Patricia.Tree.collapse ts) ∧
      n.isHash = false := by
  have hnil : ∀ i, (cs i).isNil = false ↔ ts i ≠ .nil := fun i => by
    rw [← Bool.not_eq_true, (hrs i).isNil_iff]
  cases hsc : singleChild cs
  case none =>
    have hno := singleChild_eq_none hsc
    simp only [hnil] at hno
    rw [Trie.reduceFull, hsc, Patricia.Tree.collapse_of_not_single hno]
    exact ⟨_, rfl, .full hrs (.newFlag tr), rfl⟩
  case some i =>
    have hone := singleChild_eq_some.mp hsc
    simp only [hnil] at hone
    have hshort (h : (ts i).isShort = false) :
        Rep keccak D S r (.short [i] (cs i) tr.newFlag) (Patricia.Tree.prepend [i] (ts i)) := by
      rw [Patricia.Tree.prepend_of_not_isShort h]
      exact .short (hrs i) (.newFlag tr)
    rw [Patricia.Tree.collapse_of_single hone]
    simp only [Trie.reduceFull, hsc]
    by_cases hi : i = terminator
    · subst hi
      have hmem : p ++ [terminator] ∈ hexKeys := by
        obtain ⟨l, hl⟩ := (ht terminator).exists_mem ((hone terminator).mpr rfl)
        by_cases hnil : l = []
        · simpa [hnil] using hl
        · exact absurd (by simp) (getLast_ne_terminator (k := [terminator]) (by simpa using hl) hnil)
      obtain ⟨v, hv⟩ := (ht terminator).eq_value hmem ((hone terminator).mpr rfl)
      exact ⟨_, rfl, hshort (by rw [hv]; rfl), rfl⟩
    · obtain ⟨c, hres, hc, hnh⟩ := resolve_spec tr (ht i) (hrs i) pre [i]
      simp only [hi, ne_eq, not_false_eq_true, if_true, hres, bind, Except.bind]
      split
      case h_1 k val flags =>
        generalize ts i = t at hc
        cases hc
        case short hr hc => exact ⟨_, rfl, .short hr (.newFlag tr), rfl⟩
      case h_2 hno => exact ⟨_, rfl, hshort (hc.isShort hnh fun k m fl h => hno k m fl h), rfl⟩

theorem delete_spec {fuel : Nat} (ht : Wf p t) (hr : Rep keccak D S r n t)
    (hk : p ++ k ∈ hexKeys) (hf : need n k ≤ fuel) (pre : Key) :
    ∃ b n', tr.delete D fuel n pre k = .ok (b, n') ∧ Rep keccak D S r n' (t.delete k) ∧
      (b = false → t.delete k = t) ∧ (b = true → n'.isHash = false) := by
  induction fuel generalizing p t r n k pre
  case zero => exact absurd hf need_ne_zero
  case succ fuel hi =>
    cases hr
    case nil     => exact ⟨false, _, rfl, .nil, fun _ => rfl, by simp⟩
    case value w => exact ⟨true, _, rfl, .nil, by simp, fun _ => rfl⟩
    case short k₀ c flags t hr hc =>
      obtain ⟨hk₀, _, hs, _⟩ := ht.reduced
      have hpos := List.length_pos_iff.mpr hk₀
      rcases Patricia.append_or_branch k k₀ with ⟨l, rfl⟩ | ⟨b, bs, rfl⟩ | ⟨q, b, bs, d, l, rfl, rfl, h⟩
      · have hm : prefixLen (k₀ ++ l) k₀ = k₀.length := Patricia.prefixLen_append_left k₀ l
        simp only [Trie.delete, hm, lt_irrefl, if_false]
        by_cases hl : l = []
        · subst hl
          exact ⟨true, _, by simp; rfl, by simp [Patricia.Tree.delete]; exact .nil, by simp, fun _ => rfl⟩
        · obtain ⟨b, n', hdel, hr', hb, hnh⟩ := hi (k := l) ht.of_short hr
            (by rwa [List.append_assoc]) (need_child hf (by simp; omega)) (pre ++ k₀)
          have hne : k₀.length ≠ (k₀ ++ l).length := by simpa using hl
          rw [if_neg hne, List.take_left, List.drop_left, hdel, Patricia.Tree.delete_short_append t hl]
          cases b
          case false =>
            have he : Patricia.Tree.prepend k₀ (t.delete l) = .short k₀ t := by
              rw [hb rfl, Patricia.Tree.prepend_of_not_isShort hs]
            rw [he]
            exact ⟨false, _, rfl, .short hr hc, fun _ => rfl, by simp⟩
          case true =>
            simp only [bind, Except.bind, if_true]
            split
            case h_1 k' m fl =>
              generalize t.delete l = t' at hr'
              cases hr'
              case short hr hc => exact ⟨true, _, rfl, .short hr (.newFlag tr), by simp, fun _ => rfl⟩
            case h_2 hno =>
              have := hr'.isShort (hnh rfl) fun k m fl h => hno k m fl h
              rw [Patricia.Tree.prepend_of_not_isShort this]
              exact ⟨true, _, rfl, .short hr' (.newFlag tr), by simp, fun _ => rfl⟩
      · exact absurd hk (ht.reduced.not_prefix_key (hexKeys_prefixFree.suffixes p) ht.within)
      · have hm : prefixLen (q ++ d :: l) (q ++ b :: bs) = q.length := Patricia.prefixLen_branch h q bs l
        have hp : ¬(q ++ b :: bs <+: q ++ d :: l) := by
          simp [List.prefix_append_right_inj, List.cons_prefix_cons, h.symm]
        simp only [Trie.delete, hm, Patricia.Tree.delete, if_neg hp]
        rw [if_pos (by simp)]
        exact ⟨false, _, rfl, .short hr hc, by simp, by simp⟩
    case full cs flags ts hrs hc =>
      cases k
      case nil => simpa [Patricia.Tree.isNode] using ht.isNode_of_mem (by simpa using hk)
      case cons a l =>
        have hka : p ++ [a] ++ l ∈ hexKeys := by simpa using hk
        obtain ⟨b, n', hdel, hr', hb, _⟩ := hi (k := l) (ht.of_full a) (hrs a) hka
          (need_child hf (by simp)) (pre ++ [a])
        simp only [Trie.delete, hdel, bind, Except.bind, Patricia.Tree.delete]
        cases b
        case false =>
          have he : Patricia.Tree.collapse (Function.update ts a ((ts a).delete l)) = .full ts := by
            rw [hb rfl, Function.update_eq_self, ht.reduced.collapse_eq_full]
          rw [he]
          exact ⟨false, _, rfl, .full hrs hc, by simp, by simp⟩
        case true =>
          obtain ⟨m, hred, hrm, hnh⟩ := reduceFull_spec tr pre (r := r) (p := p)
            (fun i => by
              by_cases hia : i = a
              · subst hia; simpa using (ht.of_full i).delete hka
              · simpa [hia] using ht.of_full i)
            (Rep.update (a := a) hrs hr')
          simp only [if_true, hred]
          exact ⟨true, m, rfl, hrm, by simp, fun _ => hnh⟩
    case hash h hn hw hh =>
      obtain ⟨c, hres, hr, hnh⟩ := resolveHash_spec tr ht (.hash hn hh hw) pre k
      obtain ⟨b, n', hdel, hr', hb, hnh'⟩ := hi ht hr hk (need_resolved hf hnh) pre
      simp only [Trie.delete, hres, hdel, bind, Except.bind]
      cases b
      case false => exact ⟨false, _, rfl, (hb rfl).symm ▸ hr, hb, by simp⟩
      case true  => exact ⟨true, _, rfl, hr', hb, hnh'⟩

end Trie
