import Ngram.Proofs.Hash.FiniteMap

/-!
# Adding to a table from a file

The buckets of a file need not be the work of insertions. Keys may stand where no search looks for
them, or twice, and an empty bucket may hold anything behind its key. All that is checked is that a
bucket is empty, and the entries are counted anew. This is enough to add to such a table safely:

> `inserts_iff`: an insertion whose walk is not bounded ends, and as the bounded one does.
> `find_insertEach`: whatever is found stays found, however many entries are added.
> `insertEach_ofSlots`: both along any run of insertions, and what becomes of each of them.
-/

namespace Ngram

variable {α : Type} [Entry α]

namespace Buckets

/-- The walk of an insertion from bucket `i` on ends in bucket `j`. No number of steps bounds it: it
goes on until it meets the key or an empty bucket. -/
inductive Walks (b : Buckets α) (key : UInt64) : Nat → Nat → Prop where
  | ends {i : Nat} : i < b.slots.size → b.Stops key i → Walks b key i i
  | goesOn {i j : Nat} : i < b.slots.size → ¬ b.Stops key i → Walks b key (b.next i) j →
      Walks b key i j

/-- A scan that finds an end walks there. -/
theorem walks_of_scan {b : Buckets α} {key : UInt64} {i left j : Nat}
    (h : b.scan key i left = some j) : b.Walks key i j := by
  classical
  induction left generalizing i with
  | zero => cases h
  | succ left ih =>
    by_cases hi : i < b.slots.size
    · rw [scan_succ hi] at h
      split at h
      next hs =>
        cases h
        exact .ends hi hs
      next hs => exact .goesOn hi hs (ih h)
    · rw [scan, dif_neg hi] at h
      cases h

/-- A walk has one end only. -/
theorem Walks.unique {b : Buckets α} {key : UInt64} {i j j' : Nat} (h : b.Walks key i j)
    (h' : b.Walks key i j') : j = j' := by
  induction h with
  | ends hi hs =>
    cases h' with
    | ends => rfl
    | goesOn _ hs' => exact absurd hs hs'
  | goesOn hi hs _ ih =>
    cases h' with
    | ends _ hs' => exact absurd hs' hs
    | goesOn _ _ hmore => exact ih hmore

end Buckets

namespace Table

variable {t : Table α} {e : α}

/-- What becomes of an entry if the walk to its bucket is not bounded. -/
inductive Inserts (t : Table α) (e : α) : Except Error Unit × Table α → Prop where
  | reserved : Entry.key e = 0 → Inserts t e (.error .reservedKey, t)
  | full : Entry.key e ≠ 0 → t.slots.size ≤ t.count + 1 →
      Inserts t e (.error (.tableFull t.slots.size), t)
  | duplicate {i : Nat} : Entry.key e ≠ 0 → t.count + 1 < t.slots.size →
      t.Walks (Entry.key e) (t.locate (Entry.key e)) i → t.keyAt i ≠ 0 →
      Inserts t e (.error (.duplicateKey (Entry.key e)), t)
  | placed {i : Nat} (hi : i < t.slots.size) (empty : isPresent t.slots[i] = false)
      (present : isPresent e = true) (room : t.count + 1 < t.slots.size) :
      t.Walks (Entry.key e) (t.locate (Entry.key e)) i →
      Inserts t e (.ok (), t.place e i hi empty present room)

/-- Every insertion ends, since a bucket is empty. -/
theorem inserts_insert (t : Table α) (e : α) : t.Inserts e (t.insert e) := by
  rcases t.insert_cases e with ⟨hk, heq⟩ | ⟨hk, hfull, heq⟩ | ⟨i, hk, room, hs, htaken, heq⟩ |
    ⟨i, hi, empty, present, room, -, hs, heq⟩
  · rw [heq]
    exact .reserved hk
  · rw [heq]
    exact .full hk hfull
  · rw [heq]
    exact .duplicate hk room (Buckets.walks_of_scan hs) htaken
  · rw [heq]
    exact .placed hi empty present room (Buckets.walks_of_scan hs)

/-- An insertion ends in one way only. -/
theorem Inserts.unique {r r' : Except Error Unit × Table α} (h : t.Inserts e r)
    (h' : t.Inserts e r') : r = r' := by
  cases h with
  | reserved hk =>
    cases h' with
    | reserved => rfl
    | full hk' => exact absurd hk hk'
    | duplicate hk' => exact absurd hk hk'
    | placed _ _ present => exact absurd hk (by simpa [isPresent] using present)
  | full hk hfull =>
    cases h' with
    | reserved hk' => exact absurd hk' hk
    | full => rfl
    | duplicate _ room => omega
    | placed _ _ _ room => omega
  | duplicate hk room hwalk htaken =>
    cases h' with
    | reserved hk' => exact absurd hk' hk
    | full _ hfull => omega
    | duplicate => rfl
    | placed hi empty _ _ hwalk' =>
      rw [hwalk.unique hwalk'] at htaken
      exact absurd (keyAt_of_empty hi empty) htaken
  | placed hi empty present room hwalk =>
    cases h' with
    | reserved hk' => exact absurd hk' (by simpa [isPresent] using present)
    | full _ hfull => omega
    | duplicate _ _ hwalk' htaken =>
      rw [← hwalk.unique hwalk'] at htaken
      exact absurd (keyAt_of_empty hi empty) htaken
    | placed _ _ _ _ hwalk' =>
      obtain rfl := hwalk.unique hwalk'
      rfl

/-- **An insertion without a bound ends, and as the bounded one does.** -/
theorem inserts_iff {r : Except Error Unit × Table α} : t.Inserts e r ↔ r = t.insert e := by
  constructor
  · intro h
    exact h.unique (t.inserts_insert e)
  · intro h
    rw [h]
    exact t.inserts_insert e

/-- The table behind a run of insertions is that behind the first one and then the others. -/
theorem fst_insertEach_cons (t : Table α) (e : α) (es : List α) :
    (t.insertEach (e :: es)).1 = ((t.insert e).2.insertEach es).1 := by
  rw [insertEach]
  split <;> rfl

theorem size_insertEach (t : Table α) (es : List α) :
    (t.insertEach es).1.slots.size = t.slots.size := by
  induction es generalizing t with
  | nil => rfl
  | cons e es ih => rw [fst_insertEach_cons, ih, size_insert]

/-- **Whatever is found stays found**, however many entries are added. -/
theorem find_insertEach {key : UInt64} {found : α} (h : t.find key = some found) (es : List α) :
    (t.insertEach es).1.find key = some found := by
  induction es generalizing t with
  | nil => exact h
  | cons e es ih =>
    rw [fst_insertEach_cons]
    exact ih (find_insert h e)

/-- **A table from a file can be added to safely**, whatever its buckets hold. Behind any run of
insertions the count is that of the buckets that are taken, and leaves one empty. One more insertion
ends; it refuses the entry as reserved, for want of room, or because a search finds its key, in this
order, and a refusal changes nothing. An entry that is accepted is found from then on, and whatever
was found before stays found. -/
theorem insertEach_ofSlots {slots : Array α} {mode : BucketMode} {t : Table α}
    (h : ofSlots slots mode = .ok t) (es : List α) :
    let u := (t.insertEach es).1
    u.count = u.slots.countP isPresent ∧ u.slots.size = slots.size ∧ u.count < slots.size ∧
      (∀ key found, u.find key = some found →
        ∀ more, (u.insertEach more).1.find key = some found) ∧
      ∀ e, (∀ r, u.Inserts e r ↔ r = u.insert e) ∧
        (u.insert e).1 =
          (if Entry.key e = 0 then .error .reservedKey
          else if slots.size ≤ u.count + 1 then .error (.tableFull slots.size)
          else if (u.find (Entry.key e)).isSome then .error (.duplicateKey (Entry.key e))
          else .ok ()) ∧
        ((u.insert e).1 ≠ .ok () → (u.insert e).2 = u) ∧
        ((u.insert e).1 = .ok () →
          ∀ more, ((u.insert e).2.insertEach more).1.find (Entry.key e) = some e) := by
  intro u
  have hsize : u.slots.size = slots.size := by
    rw [size_insertEach, (ofSlots_eq_ok_iff.1 h).2]
  refine ⟨u.count_eq, hsize, hsize ▸ u.count_lt, fun key found => find_insertEach, ?_⟩
  intro e
  obtain ⟨hres, hsame⟩ := u.insert_eq_ite e
  rw [hsize] at hres
  exact ⟨fun r => inserts_iff, hres, hsame, fun hok => find_insertEach (find_insert_self hok)⟩

/-- Six is in the bucket of four, where no search for it looks, and four is there twice. Another six
is accepted then, the first four is still found behind it, and there is no room for a third key. -/
theorem insertEach_ofSlots_misplaced :
    ∃ t : Table KeyValue,
      ofSlots #[⟨4, 10⟩, ⟨0, 99⟩, ⟨4, 20⟩, ⟨0, 0⟩, ⟨6, 30⟩] .divide = .ok t ∧ t.find 6 = none ∧
      let u := (t.insertEach [⟨4, 40⟩, ⟨6, 50⟩]).1
      u.count = 4 ∧ u.find 6 = some ⟨6, 50⟩ ∧ u.find 4 = some ⟨4, 10⟩ ∧
        (u.insert ⟨8, 60⟩).1 = .error (.tableFull 5) := by
  refine ⟨_, rfl, rfl, ?_⟩
  have hfile : ofSlots (α := KeyValue) #[⟨4, 10⟩, ⟨0, 99⟩, ⟨4, 20⟩, ⟨0, 0⟩, ⟨6, 30⟩] .divide =
      .ok _ := rfl
  obtain ⟨-, -, -, hstays, hfirst⟩ := insertEach_ofSlots hfile [⟨4, 40⟩]
  obtain ⟨hcount, -, -, -, hnext⟩ := insertEach_ofSlots hfile [⟨4, 40⟩, ⟨6, 50⟩]
  obtain ⟨-, -, -, haccepted⟩ := hfirst ⟨6, 50⟩
  obtain ⟨-, hresult, -, -⟩ := hnext ⟨8, 60⟩
  exact ⟨hcount, haccepted rfl [], hstays 4 ⟨4, 10⟩ rfl [⟨6, 50⟩], hresult⟩

end Table

end Ngram
