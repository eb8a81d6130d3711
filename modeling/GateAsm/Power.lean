/-!
# Powers

A power of a natural number or an integer is the core library's, whichever other instances are in scope. The running
modules and the proofs about them then speak of the same term, although only the proofs see the powers of a monoid.
-/

-- the priority is above that of a monoid, so that the order of imports does not matter
attribute [instance(high), default_instance 20000] instPowNat
