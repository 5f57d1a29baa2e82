import GoEthereum.Lib.BigEndian

-- A call of a Go function returns a value, returns an error, or panics.
inductive Fault (ε : Type)
  | error (e : ε)
  | panic
  deriving DecidableEq, Repr

abbrev Go (ε α : Type) := Except (Fault ε) α

namespace Go

def fail {ε α : Type} (e : ε) : Go ε α :=
  Except.error (Fault.error e)

def panics {ε α : Type} : Go ε α :=
  Except.error Fault.panic

variable {ε α β : Type}

theorem bind_eq_ok {x : Go ε α} {f : α → Go ε β} {b : β} :
    (x >>= f) = .ok b ↔ ∃ a, x = .ok a ∧ f a = .ok b := by
  cases x <;> simp [bind, Except.bind]

theorem bind_eq_panics {x : Go ε α} {f : α → Go ε β} :
    (x >>= f) = Go.panics ↔ x = Go.panics ∨ ∃ a, x = .ok a ∧ f a = Go.panics := by
  cases x <;> simp [bind, Except.bind, Go.panics]

-- To be rewritten with where unfolding the monad would evaluate what follows.

theorem ok_bind (a : α) (f : α → Go ε β) : ((.ok a : Go ε α) >>= f) = f a :=
  rfl

theorem error_bind (e : Fault ε) (f : α → Go ε β) :
    ((.error e : Go ε α) >>= f) = .error e :=
  rfl

theorem foldlM_keep {body : α → β → Go ε α} {I : α → Prop}
    (hb : ∀ {s s' i}, I s → body s i = .ok s' → I s') {is : List β} {s s' : α} (hs : I s)
    (h : is.foldlM body s = .ok s') : I s' := by
  induction is generalizing s
  case nil => exact Except.ok.inj h ▸ hs
  case cons i is hi =>
    obtain ⟨t, ht, h⟩ := bind_eq_ok.mp h
    exact hi (hb hs ht) h

-- What `x` returns is as `P` says, and where it panics, `B` holds.
structure Returns {ε α : Type} (x : Go ε α) (P : α → Prop) (B : Prop) : Prop where
  ok {a : α} : x = .ok a → P a
  panics     : x = Go.panics → B

namespace Returns

variable {ε α β : Type} {x : Go ε α} {P : α → Prop} {Q : β → Prop} {B : Prop}

theorem pure {a : α} (h : P a) : Returns (pure a : Go ε α) P B :=
  ⟨fun he => Except.ok.inj he ▸ h, fun he => by cases he⟩

theorem fail {e : ε} : Returns (Go.fail e) P B :=
  ⟨fun he => (by cases he), fun he => by cases he⟩

theorem bind {f : α → Go ε β} (h : Returns x P B) (hf : ∀ a, P a → Returns (f a) Q B) :
    Returns (x >>= f) Q B where
  ok he := by
    obtain ⟨a, ha, he⟩ := bind_eq_ok.mp he
    exact (hf a (h.ok ha)).ok he
  panics he := by
    obtain he | ⟨a, ha, he⟩ := bind_eq_panics.mp he
    · exact h.panics he
    · exact (hf a (h.ok ha)).panics he

end Returns

end Go

-- A method of an object of type `σ`. It leaves the object in some state in any case.
def Act (σ ε α : Type) :=
  σ → Go ε α × σ

namespace Act

variable {σ ε α β : Type}

instance : Monad (Act σ ε) where
  pure a   := fun s => (.ok a, s)
  bind x f := fun s =>
    match x s with
    | (.ok a, s)    => f a s
    | (.error e, s) => (.error e, s)

def fail (e : ε) : Act σ ε α :=
  fun s => (Go.fail e, s)

def panics : Act σ ε α :=
  fun s => (Go.panics, s)

def get : Act σ ε σ :=
  fun s => (.ok s, s)

def modify (f : σ → σ) : Act σ ε Unit :=
  fun s => (.ok (), f s)

variable {x : Act σ ε α} {f : α → Act σ ε β} {s s' : σ}

theorem bind_ok {a : α} (h : x s = (.ok a, s')) : (x >>= f) s = f a s' := by
  simp only [bind, h]

theorem bind_error {e : Fault ε} (h : x s = (.error e, s')) : (x >>= f) s = (.error e, s') := by
  simp only [bind, h]

theorem bind_eq_ok {b : β} :
    (x >>= f) s = (.ok b, s') ↔ ∃ a t, x s = (.ok a, t) ∧ f a t = (.ok b, s') := by
  simp only [bind]
  split
  case h_1 a t h => simp [h]
  case h_2 e t h => simp [h]

theorem bind_eq_fail {e : ε} :
    (x >>= f) s = (Go.fail e, s') ↔ x s = (Go.fail e, s') ∨
      ∃ a t, x s = (.ok a, t) ∧ f a t = (Go.fail e, s') := by
  simp only [bind]
  split
  case h_1 a t h => simp [h, Go.fail]
  case h_2 e t h => simp [h, Go.fail]

@[simp]
theorem pure_apply (a : α) : (pure a : Act σ ε α) s = (.ok a, s) :=
  rfl

@[simp]
theorem fail_apply (e : ε) : (fail e : Act σ ε α) s = (Go.fail e, s) :=
  rfl

end Act

-- A Go slice of bytes. Its length is an `int`.
abbrev Slice := { b : Bytes // b.length < 2 ^ 63 }

namespace Common

-- For the literals of type `Fin (2 ^ 64)`.
instance neZeroWord : NeZero (2 ^ 64) :=
  ⟨by decide⟩

def hashLength := 32

def addressLength := 20

-- `common.Hash`, an array of 32 bytes.
def Hash := { b : Bytes // b.length = hashLength }
  deriving DecidableEq

-- `common.Address`, an array of 20 bytes.
def Address := { b : Bytes // b.length = addressLength }
  deriving DecidableEq

def Hash.bytes (h : Hash) : Bytes :=
  h.val

-- Sets the hash to the value of `b`. If `b` is larger, it will be cropped from the left.
def bytesToHash (b : Bytes) : Hash :=
  ⟨List.replicate (hashLength - b.length) 0 ++ b.drop (b.length - hashLength), by simp; omega⟩

-- `common.Hash{}`
def Hash.zero : Hash :=
  ⟨List.replicate 32 0, rfl⟩

def Address.zero : Address :=
  ⟨List.replicate 20 0, rfl⟩

theorem Hash.bytes_length (h : Hash) : h.bytes.length = 32 :=
  h.property

theorem Hash.bytes_injective : Function.Injective Hash.bytes :=
  Subtype.val_injective

end Common
