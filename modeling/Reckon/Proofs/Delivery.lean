import Reckon.Text.Source

/-!
# What producers deliver

A producer hands out its items one by one. A `Delivery` is the list of all of them, with what comes
after the last: the end, or else failures, one each time that it is asked for more. A source of
characters is a producer of this kind, whatever its bytes are and whether it is broken or not.

## Main definitions

* `Delivery`, `Producer.Delivers` — what a producer hands out, and that it does.
* `Metered` — a producer that counts how often it is called.

## Main statements

* `Source.delivers` — every source of characters delivers its glyphs, and then its end or failure.
-/

namespace Reckon

/-! ### Producers and what they deliver -/

/-- What comes after the last item: the end, or one failure for each further call. -/
inductive Delivery.Ending (ι ε : Type) where
  | ended (endItem : ι)
  | broken (failure : Nat → ε)

/-- All that a producer hands out. -/
structure Delivery (ι ε : Type) where
  items : List ι
  ending : Delivery.Ending ι ε

/-- A producer goes through some states, one for each call of it, and hands out a delivery as it
does. Of the calls after the one that says that there are no more items nothing is known. -/
structure Producer.Delivers {σ ι ε : Type} [Producer σ ι ε] (states : Nat → σ)
    (d : Delivery ι ε) : Prop where
  item (i : Nat) (h : i < d.items.length) :
    fetch (states i) = .ok (some d.items[i]) (states (i + 1))
  ended (item : ι) (h : d.ending = .ended item) :
    fetch (states d.items.length) = .ok none (states (d.items.length + 1)) ∧
      endItem (states (d.items.length + 1)) = item
  broken (failure : Nat → ε) (h : d.ending = .broken failure) (k : Nat) :
    fetch (states (d.items.length + k)) = .error (failure k) (states (d.items.length + k + 1))

/-- A producer with the number of times that it has been called. -/
structure Metered (σ : Type) where
  producer : σ
  calls : Nat

instance {σ ι ε : Type} [Producer σ ι ε] : Producer (Metered σ) ι ε where
  fetch m :=
    match Producer.fetch m.producer with
    | .ok item? p => .ok item? ⟨p, m.calls + 1⟩
    | .error e p => .error e ⟨p, m.calls + 1⟩
  endItem m := Producer.endItem m.producer

/-- A meter changes nothing. -/
theorem Producer.Delivers.metered {σ ι ε : Type} [Producer σ ι ε] {states : Nat → σ}
    {d : Delivery ι ε} (h : Delivers states d) :
    Delivers (fun n => Metered.mk (states n) n) d where
  item i hi := by
    show (match fetch (states i) with | .ok _ _ => _ | .error _ _ => _) = _
    rw [h.item i hi]
  ended item hitem := by
    obtain ⟨hfetch, hend⟩ := h.ended item hitem
    refine ⟨?_, hend⟩
    show (match fetch (states d.items.length) with | .ok _ _ => _ | .error _ _ => _) = _
    rw [hfetch]
  broken failure hfailure k := by
    show (match fetch (states (d.items.length + k)) with | .ok _ _ => _ | .error _ _ => _) = _
    rw [h.broken failure hfailure k]

/-! ### Sources of characters -/

namespace Source

/-- A source of which some bytes have been read. -/
def read (s : Source) (n : Nat) : Source where
  bytes := s.bytes.drop n
  failure := s.failure
  position := (s.bytes.take n).foldl (fun p b => p.after (Char.ofUInt8 b)) s.position

/-- The glyphs of a source, and then its end or its failure. -/
def delivery (s : Source) : Delivery Glyph String where
  items := s.glyphs
  ending :=
    match s.failure with
    | some reason => .broken fun _ => reason
    | none => .ended (.ending s.last)

theorem length_glyphsFrom (p : Position) (bytes : List UInt8) :
    (glyphsFrom p bytes).length = bytes.length := by
  induction bytes generalizing p with
  | nil => rfl
  | cons b bytes ih => rw [glyphsFrom, List.length_cons, List.length_cons, ih]

theorem getElem?_glyphsFrom (p : Position) (bytes : List UInt8) (i : Nat) :
    (glyphsFrom p bytes)[i]? = bytes[i]?.map fun b => ⟨Char.ofUInt8 b,
      ((bytes.take i).foldl (fun p b => p.after (Char.ofUInt8 b)) p).next⟩ := by
  induction bytes generalizing p i with
  | nil => rfl
  | cons b bytes ih =>
    cases i with
    | zero => rfl
    | succ i => simp only [glyphsFrom, List.getElem?_cons_succ, ih, List.take_succ_cons,
        List.foldl_cons]

/-- A source that is read to its end stays as it is. -/
theorem read_of_length_le (s : Source) {n : Nat} (h : s.bytes.length ≤ n) :
    s.read n = { s with bytes := [], position := s.last } := by
  rw [read, List.drop_eq_nil_of_le h, List.take_of_length_le h]
  rfl

/-- Every source delivers its glyphs and then, for ever, its end or its failure. -/
theorem delivers (s : Source) : Producer.Delivers s.read s.delivery := by
  have hlength : s.delivery.items.length = s.bytes.length := length_glyphsFrom s.position s.bytes
  have hread {n : Nat} (hn : s.delivery.items.length ≤ n) :
      s.read n = { s with bytes := [], position := s.last } :=
    s.read_of_length_le (hlength ▸ hn)
  refine ⟨fun i hi => ?_, fun item hitem => ?_, fun failure hfailure k => ?_⟩
  · have hi' : i < s.bytes.length := hlength ▸ hi
    have hitem : s.delivery.items[i] = ⟨Char.ofUInt8 s.bytes[i], (s.read i).position.next⟩ := by
      have hget : s.delivery.items[i]? = _ := getElem?_glyphsFrom s.position s.bytes i
      rw [List.getElem?_eq_getElem hi', List.getElem?_eq_getElem hi] at hget
      exact Option.some.inj hget
    have hposition : (s.read (i + 1)).position =
        (s.read i).position.after (Char.ofUInt8 s.bytes[i]) := by
      simp only [read, List.take_succ_eq_append_getElem hi', List.foldl_append]
      rfl
    show fetch (s.read i) = _
    rw [fetch, hitem]
    have hbytes : (s.read i).bytes = s.bytes[i] :: (s.read (i + 1)).bytes :=
      List.drop_eq_getElem_cons hi'
    rw [hbytes]
    dsimp only
    rw [← hposition]
    rfl
  · rw [hread (Nat.le_refl _), hread (Nat.le_succ _)]
    cases hf : s.failure with
    | some reason => simp [delivery, hf] at hitem
    | none =>
      simp only [delivery, hf, Delivery.Ending.ended.injEq] at hitem
      exact ⟨rfl, hitem⟩
  · rw [hread (Nat.le_add_right _ _), hread (Nat.le_add_right_of_le (Nat.le_add_right _ _))]
    cases hf : s.failure with
    | some reason =>
      simp only [delivery, hf, Delivery.Ending.broken.injEq] at hfailure
      rw [← hfailure]
      rfl
    | none => simp [delivery, hf] at hfailure

end Source

end Reckon
