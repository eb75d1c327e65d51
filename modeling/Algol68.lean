import Algol68.Main
import Algol68.Proofs.Blame
import Algol68.Proofs.Building
import Algol68.Proofs.Comments
import Algol68.Proofs.Constancy
import Algol68.Proofs.Counting
import Algol68.Proofs.Draws
import Algol68.Proofs.FreshSlices
import Algol68.Proofs.Interning
import Algol68.Proofs.Levels
import Algol68.Proofs.Nesting
import Algol68.Proofs.Phases
import Algol68.Proofs.Seeds
import Algol68.Proofs.StackEffect
import Algol68.Proofs.ValueTexts
import Algol68.Proofs.ValueUnits
