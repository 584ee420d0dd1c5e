import FactoryMethods.Catalogue.WellFormed
import FactoryMethods.Catalogue.Printer
import FactoryMethods.Main
import FactoryMethods.Proofs.Expansion.Balance
import FactoryMethods.Proofs.Expansion.Composition
import FactoryMethods.Proofs.Catalogue.Acceptance
import FactoryMethods.Proofs.Catalogue.RoundTrip
import FactoryMethods.Proofs.Catalogue.Truncation
import FactoryMethods.Proofs.Expansion.FactoryListing
import FactoryMethods.Proofs.Expansion.Attribution
import FactoryMethods.Proofs.Method.Unwinding
import FactoryMethods.Proofs.Expansion.Accounting
import FactoryMethods.Proofs.Expansion.Hygiene
import FactoryMethods.Proofs.Markup.Ignorable
import FactoryMethods.Proofs.Catalogue.Insertion
import FactoryMethods.Proofs.Source.Shape
import FactoryMethods.Proofs.Expansion.Independence
import FactoryMethods.Proofs.Expansion.Logging
import FactoryMethods.Proofs.Source.Lines
import FactoryMethods.Proofs.Generation.FrontDoors
import FactoryMethods.Proofs.Generation.Decoding
import FactoryMethods.Proofs.Catalogue.FirstDefect
import FactoryMethods.Proofs.Markup.Content
import FactoryMethods.Proofs.Markup.Tags
import FactoryMethods.Proofs.Catalogue.Replacement
import FactoryMethods.Proofs.Catalogue.Finality
import FactoryMethods.Proofs.Method.Indentation
import FactoryMethods.Proofs.Catalogue.Lookup
import FactoryMethods.Proofs.Markup.Values
import FactoryMethods.Proofs.Catalogue.TagReading
import FactoryMethods.Proofs.Method.Header
import FactoryMethods.Proofs.Expansion.SourceLines
import FactoryMethods.Proofs.Catalogue.Names
import FactoryMethods.Proofs.Catalogue.Loops
import FactoryMethods.Proofs.Catalogue.Texts
