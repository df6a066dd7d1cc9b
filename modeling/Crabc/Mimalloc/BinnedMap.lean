/-
  Crabc.Mimalloc.BinnedMap

  The chunk map of a binned bitmap under any interleaving.

  A chunk with a set bit must have its bit in the chunk map, or a later search does not
  look there.  A thread that sets bits of a chunk owes the map bit until it sets it; a
  thread that has cleared the map bit answers for the fields that it has not looked at
  again.  The map is conservative as long as every call that has set bits of a chunk sets
  the map bit afterwards.  Two paths of the search do not, and one of them is enough to
  make an available chunk invisible.
-/

import Crabc.Mimalloc.BinnedOwnership

namespace Crabc.Mimalloc

open Crabc.Lib BinnedBitmap Relation

/-! ## Memory with a history -/

open Function List Set Safe WordOp

open BinnedLoc (chunkmap data)

section

variable {ι : Type} [DecidableEq ι]

/-- The words, and for every thread the chunks whose bits it has set during its call since it last set their
    bit in the chunk map. The second part is a history that no program reads. -/
structure BinnedMem (ι : Type) where
  words : BinnedLoc → Word
  returned : ι → Set Nat

/-- The history after an operation. -/
def noteReturned (op : WordOp BinnedLoc) (chunks : Set Nat) : Set Nat :=
  match op with
  | .fetchOr (.data word) _ => insert (word / 8) chunks
  | .swap (.data word) _ => insert (word / 8) chunks
  | .fetchOr (.chunkmap field) mask => chunks \ wordBits field mask
  | _ => chunks

/-- An operation of one thread. -/
def BinnedDoes (i : ι) (op : WordOp BinnedLoc) (mem : BinnedMem ι) (reply : Word) (mem' : BinnedMem ι) :
    Prop :=
  op.Does mem.words reply mem'.words ∧ mem'.returned = Function.update mem.returned i (noteReturned op (mem.returned i))

/-- The words of a bitmap of `count` chunks. -/
def BinnedValid (count : Nat) (op : WordOp BinnedLoc) : Prop :=
  match op.loc with
  | .data word => word < 8 * count
  | .chunkmap field => field < 8
  | .bin bin field => bin < 5 ∧ field < 8
  | .maxAccessed => True

/-! ## Who answers for a bit -/

/-- What a thread owes to the chunk map, and where it is in `chunkmap_try_clear`: the chunk
    whose bit it has cleared and the first field it has not looked at again. -/
structure MapGhost where
  owes : Set Nat
  scan : Option (Nat × Nat)

namespace MapGhost

def settled : MapGhost := ⟨∅, none⟩

def charge (c : Nat) (e : MapGhost) : MapGhost := { e with owes := insert c e.owes }

def discharge (c : Nat) (e : MapGhost) : MapGhost := ⟨e.owes \ {c}, none⟩

def Clean (e : MapGhost) : Prop := e.scan = none

/-- The thread answers for bit `n`. -/
def Covers (e : MapGhost) (n : Nat) : Prop :=
  n / 512 ∈ e.owes ∨ ∃ f, e.scan = some (n / 512, f) ∧ f ≤ n / 64 % 8

end MapGhost

/-- Every set bit has its chunk in the map, or a thread that answers for it. -/
structure MapInv (available : Set Nat) (mem : BinnedMem ι) (ghosts : ι → Set Nat × MapGhost) : Prop where
  owned : Owned data available mem.words fun i => (ghosts i).1
  history : ∀ i, mem.returned i = (ghosts i).2.owes
  covered : ∀ n, bitAt data mem.words n = true → bitAt chunkmap mem.words (n / 512) = true ∨ ∃ i, (ghosts i).2.Covers n

section

variable {available : Set Nat} {mem mem' : BinnedMem ι} {ghosts : ι → Set Nat × MapGhost} {i : ι}

/-- One thread changes the words and its ghost value. -/
theorem MapInv.change (h : MapInv available mem ghosts) {g' : Set Nat × MapGhost}
    (howned : Owned data available mem'.words
      (update (fun j => (ghosts j).1) i g'.1)) (hreturned : mem'.returned = update mem.returned i g'.2.owes)
    (hnew : ∀ n, bitAt data mem'.words n = true → bitAt data mem.words n = true ∨ g'.2.Covers n)
    (hmap : ∀ n, bitAt data mem'.words n = true → bitAt chunkmap mem.words (n / 512) = true →
        bitAt chunkmap mem'.words (n / 512) = true ∨ g'.2.Covers n)
    (hghost : ∀ n, bitAt data mem'.words n = true → (ghosts i).2.Covers n →
      bitAt chunkmap mem'.words (n / 512) = true ∨ g'.2.Covers n) : MapInv available mem' (update ghosts i g') := by
  refine ⟨?_, fun j => ?_, fun n hn => ?_⟩
  · have heq : (fun j => (update ghosts i g' j).1) =
        update (fun j => (ghosts j).1) i g'.1 := comp_update Prod.fst ghosts i g'
    rw [heq]
    exact howned
  · rw [hreturned]
    by_cases hj : j = i
    · subst hj
      rw [update_self, update_self]
    · rw [update_of_ne hj, update_of_ne hj]
      exact h.history j
  · have hmine : g'.2.Covers n → ∃ j, (update ghosts i g' j).2.Covers n := fun hcovers =>
      ⟨i, by rw [update_self]; exact hcovers⟩
    rcases hnew n hn with hold | hcovers
    · rcases h.covered n hold with hbit | ⟨j, hj⟩
      · exact (hmap n hn hbit).imp_right hmine
      · by_cases hji : j = i
        · subst hji
          exact (hghost n hn hj).imp_right hmine
        · exact .inr ⟨j, by rw [update_of_ne hji]; exact hj⟩
    · exact .inr (hmine hcovers)

omit [DecidableEq ι] in
/-- Nothing of the bitmap changes but words that are neither data nor chunk map. -/
theorem MapInv.frame (h : MapInv available mem ghosts) (hdata : ∀ w, mem'.words (.data w) = mem.words (.data w))
    (hmap : ∀ f, mem'.words (.chunkmap f) = mem.words (.chunkmap f)) (hreturned : mem'.returned = mem.returned) :
    MapInv available mem' ghosts := by
  have hbit (n : Nat) : bitAt data mem'.words n = bitAt data mem.words n := by rw [bitAt, bitAt, hdata]
  have hmapBit (c : Nat) :
      bitAt chunkmap mem'.words c = bitAt chunkmap mem.words c := by
    rw [bitAt, bitAt, hmap]
  refine ⟨h.owned.congr hdata, fun i => hreturned ▸ h.history i, fun n hn => ?_⟩
  rw [hbit] at hn
  rw [hmapBit]
  exact h.covered n hn

end

/-! ## The rules -/

section

variable {available : Set Nat} {count : Nat} {i : ι}

/-- The rules of a thread that keeps nothing in particular. -/
abbrev MapKeeps (available : Set Nat) (count : Nat) (i : ι) (op : WordOp BinnedLoc)
    (g : Set Nat × MapGhost) (Q : Word → Set Nat × MapGhost → Prop) : Prop :=
  Keeps BinnedDoes (BinnedValid count) (MapInv available) (fun _ => True) i op g Q

variable {op : WordOp BinnedLoc}

/-- An operation that changes neither the data nor the chunk map. -/
theorem mapKeeps_other {g : Set Nat × MapGhost} (hvalid : BinnedValid count op)
    (hdata : ∀ w m, op.apply m (.data w) = m (.data w)) (hmap : ∀ f m, op.apply m (.chunkmap f) = m (.chunkmap f))
    (hnote : ∀ chunks, noteReturned op chunks = chunks) : MapKeeps available count i op g fun _ g' => g' = g := by
  refine ⟨hvalid, fun mem ghosts hinv hg _ reply mem' hdoes => ⟨g, ?_, trivial, rfl⟩⟩
  obtain ⟨⟨-, hwords⟩, hreturned⟩ := hdoes
  rw [← hg, update_eq_self]
  refine hinv.frame (fun w => ?_) (fun f => ?_) ?_
  · rw [hwords, hdata]
  · rw [hwords, hmap]
  · rw [hreturned, hnote, update_eq_self]

theorem mapKeeps_load (l : BinnedLoc) (g : Set Nat × MapGhost) (hvalid : BinnedValid count (.load l)) :
    MapKeeps available count i (.load l) g fun _ g' => g' = g :=
  mapKeeps_other hvalid (fun _ m => congrFun (update_eq_self l m) _)
    (fun _ m => congrFun (update_eq_self l m) _) fun _ => rfl

/-- An operation on a word of the bin maps or on the highest chunk. -/
theorem mapKeeps_elsewhere (op : WordOp BinnedLoc) (g : Set Nat × MapGhost) (hvalid : BinnedValid count op)
    (hdata : ∀ w, .data w ≠ op.loc) (hmap : ∀ f, .chunkmap f ≠ op.loc)
    (hnote : ∀ chunks, noteReturned op chunks = chunks) :
    MapKeeps available count i op g fun _ g' => g' = g :=
  mapKeeps_other hvalid (fun w _ => update_of_ne (hdata w) _ _)
    (fun f _ => update_of_ne (hmap f) _ _) hnote

variable {c : Nat}

open MapGhost

/-- The rules for a chunk: bits that a thread sets are charged to it. -/
theorem mapChunkRules {available : Set Nat} (hc : c < count) {i : ι} :
    ChunkRules BinnedDoes (BinnedValid count) (MapInv available) (fun _ => True) i (chunk c) (8 * c)
      (charge c) ∅ := by
  refine .ofOwned (C := True) BinnedMem.words data_injective (fun _ => rfl) (fun e => ?_) (fun f hf op hop => ?_)
    (fun g => ⟨fun _ => ⟨empty_subset g.1, trivial⟩, fun _ => trivial⟩) (fun _ _ _ _ h => h.1)
    (fun _ _ h => h.owned) fun op f hf hop mem ghosts own e reply mem' own' hinv hg hdoes howned hadds => ?_
  · rw [charge, charge, insert_eq_of_mem (mem_insert _ _)]
  · rw [BinnedValid, hop]
    show 8 * c + f < 8 * count
    omega
  · obtain ⟨⟨-, hwords⟩, hreturned⟩ := hdoes
    rw [apply, hop] at hwords
    have hmap (n : Nat) :
        bitAt chunkmap mem'.words n = bitAt chunkmap mem.words n := by
      rw [bitAt, bitAt, hwords, update_of_ne (show chunkmap _ ≠ .data (8 * c + f) by simp)]
    have hcovers (n : Nat) (hn : e.Covers n) : (if op.sets then e.charge c else e).Covers n := by
      split
      · exact hn.imp_left (mem_insert_of_mem _)
      · exact hn
    refine hinv.change howned ?_ (fun n hn => ?_) (fun n _ hbit => .inl (hmap _ ▸ hbit)) fun n _ hn => .inr ?_
    · rw [hreturned, hinv.history i, hg]
      cases op
      all_goals
        obtain rfl := hop
        simp [noteReturned, sets, charge, show (8 * c + f) / 8 = c by omega]
    · cases hsets : op.sets with
      | true =>
        rw [hwords, bitAt_update data_injective] at hn
        split at hn
        case isTrue hw =>
          refine .inr (.inl ?_)
          rw [if_pos rfl, show n / 512 = c by omega]
          exact mem_insert _ _
        case isFalse => exact .inl hn
      | false => exact .inl (hinv.owned.set_before howned (congrArg Prod.fst hg ▸ hadds hsets) hn)
    · rw [hg] at hn
      exact hcovers n hn

/-! ### The chunk map -/

variable {own : Set Nat}

/-- An operation on the chunk map: the bits stay, and the thread answers for what the map loses. -/
theorem mapKeeps_chunkmap {f : Nat} (hloc : op.loc = .chunkmap f) (hf : f < 8) {e e' : MapGhost}
    (hnote : noteReturned op e.owes = e'.owes) (hmap : ∀ m n, bitAt chunkmap m (n / 512) = true ∨ e.Covers n →
      bitAt chunkmap (op.apply m) (n / 512) = true ∨ e'.Covers n) :
    MapKeeps available count i op (own, e) fun _ g' => g' = (own, e') := by
  refine ⟨by rw [BinnedValid, hloc]; exact hf, fun mem ghosts hinv hg _ reply mem' hdoes => ?_⟩
  obtain ⟨⟨-, hwords⟩, hreturned⟩ := hdoes
  have hdata (w : Nat) : mem'.words (.data w) = mem.words (.data w) := by
    rw [hwords, apply, hloc]
    exact update_of_ne (show data w ≠ .chunkmap f by simp) _ _
  have hbit (n : Nat) : bitAt data mem'.words n = bitAt data mem.words n := by rw [bitAt, bitAt, hdata]
  refine ⟨(own, e'), hinv.change ?_ ?_ (fun n hn => .inl (hbit n ▸ hn)) (fun n _ h => hwords ▸ hmap _ n (.inl h))
    (fun n _ hcovers => ?_), trivial, rfl⟩
  · rw [show own = (ghosts i).1 from (congrArg Prod.fst hg).symm, update_eq_self]
    exact hinv.owned.congr hdata
  · rw [hreturned, hinv.history i, hg, hnote]
  · rw [hg] at hcovers
    exact hwords ▸ hmap _ n (.inr hcovers)

/-- A thread that sets the map bit of a chunk owes nothing for it any more. -/
theorem mapKeeps_set (hc : c < 512) {e : MapGhost} (hscan : ∀ c' f, e.scan = some (c', f) → c' = c) :
    MapKeeps available count i (.fetchOr (.chunkmap (c / 64)) (fieldMaskValid 1 (c % 64))) (own, e)
      fun _ g' => g' = (own, e.discharge c) := by
  refine mapKeeps_chunkmap rfl (by omega) (by rw [noteReturned, wordBits_bit]; rfl) fun m n h => ?_
  rw [bitAt_setBit chunkmap_injective]
  by_cases hn : n / 512 = c
  · exact .inl (.inr hn)
  · rcases h with hmap | howes | ⟨f, hscan', -⟩
    · exact .inl (.inl hmap)
    · exact .inr (.inl ⟨howes, hn⟩)
    · exact absurd (hscan _ f hscan') hn

/-- A thread that clears the map bit of a chunk answers for all of its fields. -/
theorem mapKeeps_clearMap (hc : c < 512) :
    MapKeeps available count i (.fetchAnd (.chunkmap (c / 64)) (~~~fieldMaskValid 1 (c % 64)))
      (own, .settled) fun _ g' => g' = (own, ⟨∅, some (c, 0)⟩) := by
  refine mapKeeps_chunkmap rfl (by omega) rfl fun m n h => ?_
  rw [bitAt_clearBit chunkmap_injective]
  by_cases hn : n / 512 = c
  · exact .inr (.inr ⟨0, hn ▸ rfl, Nat.zero_le _⟩)
  · rcases h with hmap | howes | ⟨f, hscan, -⟩
    · exact .inl ⟨hmap, hn⟩
    · exact absurd howes (notMem_empty _)
    · exact nomatch hscan

/-- The thread has looked again at the fields below `f`. -/
def scanned (c f : Nat) : MapGhost := ⟨∅, if f < 8 then some (c, f) else none⟩

/-- A field that is found clear again needs no answer. -/
theorem mapKeeps_scan {f : Nat} (hc : c < count) (hf : f < 8) :
    MapKeeps available count i (.load (chunk c f)) (own, scanned c f) fun value g' =>
      g' = (own, if value = 0 then scanned c (f + 1) else scanned c f) := by
  refine ⟨show 8 * c + f < 8 * count by omega, fun mem ghosts hinv hg _ reply mem' hdoes => ?_⟩
  obtain ⟨⟨rfl, hwords⟩, hreturned⟩ := hdoes
  have hsame : mem'.words = mem.words := hwords.trans (update_eq_self _ _)
  refine ⟨_, hinv.change ?_ ?_ (fun n hn => .inl (hsame ▸ hn)) (fun n _ hmap => .inl (hsame ▸ hmap))
    (fun n hn hcovers => ?_), trivial, rfl⟩
  · rw [show own = (ghosts i).1 from (congrArg Prod.fst hg).symm, update_eq_self, hsame]
    exact hinv.owned
  · rw [hreturned, hinv.history i, hg]
    split <;> rfl
  · rw [hg] at hcovers
    by_cases hzero : mem.words (chunk c f) = 0
    case neg =>
      rw [if_neg (by exact hzero)]
      exact .inr hcovers
    case pos =>
      rw [if_pos (by exact hzero)]
      obtain ⟨f', hscan, hle⟩ := hcovers.resolve_left (notMem_empty _)
      rw [scanned, if_pos hf] at hscan
      obtain ⟨hc', rfl⟩ : c = n / 512 ∧ f = f' := by
        cases hscan
        exact ⟨rfl, rfl⟩
      -- the bit is set, so it is in a later field
      have hne : n / 64 % 8 ≠ f := fun heq => by
        have hword : data (n / 64) = chunk c f := by
          congr 1
          omega
        rw [hsame, bitAt, hword, hzero, BitVec.ofNat_eq_ofNat, BitVec.getLsbD_zero] at hn
        cases hn
      refine .inr (.inr ⟨f + 1, ?_, by omega⟩)
      rw [scanned, if_pos (by omega), hc']

/-- The second look of `chunkmap_try_clear`. -/
theorem secondScan (hc : c < count) : Safe BinnedDoes (BinnedValid count) (MapInv available) (fun _ => True) i
      (Chunk.allAreClearRelaxed (chunk c)) (own, scanned c 0) fun clear g' =>
        if clear then g' = (own, .settled) else ∃ f, g' = (own, scanned c f) := by
  refine bind ((each_rest (Q := fun clear g' => clear = false ∧ ∃ f, g' = (own, scanned c f))
    (fun rest (_ : Unit) g => ∃ f, f ≤ 8 ∧ rest = range' f (8 - f) ∧ g = (own, scanned c f))
    ?_ ⟨0, Nat.zero_le _, range_eq_range', rfl⟩).mono ?_)
  · rintro f rest _ _ ⟨f', hle, hrest, rfl⟩
    obtain ⟨hlt, rfl, hrest⟩ : f' < 8 ∧ f = f' ∧ rest = range' (f' + 1) (8 - (f' + 1)) := by
      have hlt : f' < 8 := by
        by_contra hend
        rw [show 8 - f' = 0 by omega] at hrest
        exact nomatch hrest
      rw [show 8 - f' = 8 - (f' + 1) + 1 by omega, range'_succ] at hrest
      obtain ⟨hhead, htail⟩ := cons.inj hrest
      exact ⟨hlt, hhead, htail⟩
    refine Keeps.bind ((mapKeeps_scan hc hlt).mono ?_)
    rintro value _ rfl
    split
    case isTrue => exact ⟨rfl, f, rfl⟩
    case isFalse hzero =>
      rw [if_pos (not_not.mp hzero)]
      exact ⟨f + 1, hlt, hrest, rfl⟩
  · rintro (_ | clear) g' h
    · obtain ⟨f, hle, hrest, rfl⟩ := h
      obtain rfl : f = 8 := by
        have hlength := congrArg length hrest
        rw [length_range', length_nil] at hlength
        omega
      exact rfl
    · obtain ⟨rfl, hscan⟩ := h
      exact hscan

/-- `chunkmap_try_clear` leaves no bit without an answer. -/
theorem mapChunkmapTryClear (hc : c < count) (hcount : count ≤ 512) {rounds : Nat} :
    Safe BinnedDoes (BinnedValid count) (MapInv available) (fun _ => True) i
      (chunkmapTryClear rounds c) (own, .settled) fun _ g' => g' = (own, .settled) := by
  refine bind (((mapChunkRules hc).relaxedScans _).1.mono ?_)
  rintro (_ | _) _ rfl
  · exact rfl
  refine bind ((safe_run_one (by omega)).2 ((mapKeeps_clearMap (by omega)).mono ?_))
  rintro _ _ rfl _
  refine bind ((secondScan hc).mono ?_)
  rintro (_ | _) g' h
  · -- a bit has come back, and so does the bit of the map
    obtain ⟨f, rfl⟩ := h
    have hscan (c' f' : Nat) (heq : (scanned c f).scan = some (c', f')) : c' = c := by
      rw [scanned] at heq
      split at heq
      · cases heq
        rfl
      · exact nomatch heq
    refine bind ((safe_run_one (by omega)).1 ((mapKeeps_set (by omega) hscan).mono ?_))
    rintro _ _ rfl _
    exact congrArg (fun owes => (own, mk owes none)) (empty_sdiff {c})
  · obtain rfl := h
    refine bind (Keeps.bind ((mapKeeps_load .maxAccessed _ trivial).mono ?_))
    rintro oldMax _ rfl
    split
    case isFalse => exact rfl
    case isTrue =>
      exact Keeps.bind ((mapKeeps_elsewhere (.cas .maxAccessed _ _) _ trivial nofun nofun
        fun _ => rfl).mono fun _ _ h => h)

/-- The rules hold of a bitmap with a chunk map. -/
theorem mapRules (available : Set Nat) (hcount : count ≤ 512) (i : ι) :
    BinnedRules BinnedDoes (BinnedValid count) (MapInv available) (fun _ => True) i count
      charge discharge MapGhost.Clean .settled ∅ where
  count_le := hcount
  clean_settled := rfl
  clean_charge _ _ h := h
  clean_discharge _ _ _ := rfl
  discharge_charge c := by
    rw [charge, discharge, settled]
    exact congrArg (mk · none) (by rw [insert_empty_eq, sdiff_self])
  chunk c hc := mapChunkRules hc
  loadMap f hf g := mapKeeps_load _ g hf
  setMap c hc own e he := mapKeeps_set (by omega) fun _ _ heq => nomatch (he.symm.trans heq)
  tryClear c hc rounds own := mapChunkmapTryClear hc hcount
  loadBin b f hb hf g := mapKeeps_load _ g ⟨hb, hf⟩
  setBin b f hb hf w g := mapKeeps_elsewhere (.fetchOr (.bin b f) w) g ⟨hb, hf⟩ nofun nofun fun _ => rfl
  clearBin b f hb hf w g := mapKeeps_elsewhere (.fetchAnd (.bin b f) w) g ⟨hb, hf⟩ nofun nofun fun _ => rfl
  loadMax g := mapKeeps_load _ g trivial
  casMax old new g := mapKeeps_elsewhere (.cas .maxAccessed old new) g trivial nofun nofun fun _ => rfl

end

end

end Crabc.Mimalloc
