import Whatsup.Hostlist.Truncation
import Whatsup.Nodeupdown.Listing

/-!
# The nodes of a loaded handle in a buffer that is too small

`nodeupdown_get_up_nodes_string` and `nodeupdown_get_down_nodes_string` print a list of the handle
into the buffer of the caller, and report `NODEUPDOWN_ERR_OVERFLOW` if the printer says that the
text does not fit. `rangedString_delivered` gives for every list what the printer does with every
size of the buffer, and that the report comes exactly for a text that does not fit: a caller that
comes back with a larger buffer is served as soon as the buffer is larger than the text.
-/

set_option autoImplicit false
set_option relaxedAutoImplicit false

namespace Whatsup

open CLib

/-- Assumes: a loaded handle, a buffer that is not empty, and a list whose text does not fit into
it. The overflow is reported. -/
theorem getNodesString_overflow {w : World} {up : Bool} {hl : Hostlist} {buf text : List Char}
    {buflen len : ℤ}
    (hloaded : w.Loaded) (hnodes : w.handle.nodes up = some hl) (hbuflen : 0 < buflen)
    (hprint : hostlistRangedString hl buflen.toNat buf = some (len, text)) (hcut : len < 0) :
    getNodesString up (some buf) buflen w = .ok (none, w.setErrnum .overflow) := by
  have hcheck : loadedHandleErrorCheck w = .ok (some (), w) :=
    loadedHandleErrorCheck_some.mpr ⟨hloaded, rfl⟩
  change Attempt.andThen _ _ w = _
  rw [Attempt.andThen, hcheck]
  simp only [if_neg (not_le.mpr hbuflen)]
  change Attempt.andThen _ _ w = _
  rw [Attempt.andThen, theNodes_eq hnodes]
  simp only [hprint, if_pos hcut]
  rfl

/-- Every list is printed into a buffer of every size as `Ranged` says, if the lengths that are
counted are `int`. A query of a loaded handle fails with an overflow exactly if the text does not
fit; with every larger buffer it gives the text. -/
theorem rangedString_delivered (hl : Hostlist) :
    (∀ (n : ℕ) (buf : List Char), 1 ≤ n → buf.length = n → Counts hl n → Ranged hl n buf) ∧
      ∀ (up : Bool) (w : World), w.Loaded → w.handle.nodes up = some hl →
        (∀ (n : ℕ) (buf : List Char), 1 ≤ n → n < 2147483648 → buf.length = n → Counts hl n →
          (getNodesString up (some buf) n w = .ok (none, w.setErrnum .overflow) ↔
            n ≤ (fullText hl.ranges).length)) ∧
        ∀ (n : ℕ) (buf : List Char), (fullText hl.ranges).length < n → n < 2147483648 →
          buf.length = n →
          ∃ text, getNodesString up (some buf) n w = .ok (some text, w.setErrnum .success) ∧
            fullText hl.ranges ++ ['\x00'] <+: text := by
  have hserved : ∀ (up : Bool) (w : World) (n : ℕ) (buf : List Char), w.Loaded →
    w.handle.nodes up = some hl →
      (fullText hl.ranges).length < n → n < 2147483648 → buf.length = n →
      ∃ text, getNodesString up (some buf) n w = .ok (some text, w.setErrnum .success) ∧
        fullText hl.ranges ++ ['\x00'] <+: text := by
    intro up w n buf hloaded hnodes hfits hint hbuf
    obtain ⟨text, hprint, hprefix⟩ := hostlistRangedString_full hfits (by omega) hbuf.ge
    exact ⟨text, getNodesString_eq hloaded hnodes (by omega) hprint (Int.natCast_nonneg _), hprefix⟩
  refine ⟨fun n buf hn hbuf hcounts ↦ ranged_of_counts hn hbuf hcounts,
    fun up w hloaded hnodes ↦ ⟨?_, ?_⟩⟩
  · intro n buf hn hint hbuf hcounts
    constructor
    · intro hfails
      by_contra hfits
      obtain ⟨text, hserved, -⟩ := hserved up w n buf hloaded hnodes (not_le.mp hfits) hint hbuf
      rw [hserved] at hfails
      simp at hfails
    · intro hlong
      obtain ⟨ret, text, hprint, -, hfails, -⟩ := ranged_of_counts hn hbuf hcounts
      exact getNodesString_overflow hloaded hnodes (by omega) hprint (by
        rw [hfails.mpr hlong]; decide)
  · exact fun n buf hfits hint hbuf ↦ hserved up w n buf hloaded hnodes hfits hint hbuf

/-- The text of the list needs 23 cells. -/
theorem rangedString_delivered_short :
    Ranged shortSuffixes 23 (List.replicate 23 'x') ∧
      getNodesString true (some (List.replicate 22 'x')) (22 : ℕ) (listedWorld shortSuffixes) =
        .ok (none, (listedWorld shortSuffixes).setErrnum .overflow) ∧
      ∃ text, getNodesString true (some (List.replicate 23 'x')) (23 : ℕ)
        (listedWorld shortSuffixes) =
        .ok (some text, (listedWorld shortSuffixes).setErrnum .success) ∧
        "n[07-08],login,n[9-10]\x00".toList <+: text :=
  have hquery := (rangedString_delivered shortSuffixes).2 true (listedWorld shortSuffixes)
    ⟨rfl, rfl⟩ rfl
  ⟨(rangedString_delivered shortSuffixes).1 23 _ (by decide) rfl (Or.inl (by decide)),
    (hquery.1 22 _ (by decide) (by decide) rfl (Or.inl (by decide))).mpr (by decide),
    hquery.2 23 _ (by decide) (by decide) rfl⟩

end Whatsup
